import BadIo.AllocatorAware
import BadIo.Uring.Submission

namespace BadIo.Uring

open AllocatorAware Native

structure Sqe (R : Type*) where
  request : R
  userData : Pointer
  deriving DecidableEq

structure State (R : Type*) where
  ledger : Ledger
  ring : SubmissionRing (Sqe R)
  deriving DecidableEq

variable {R : Type*}

/-- `completion` is the address that the allocator hands out, `throws` whether the
callback's constructor does, and `results` the outcomes of `io_uring_submit`.  `none` in
place of a result is the exception passing through. -/
def submit (ctx : Context) (s : State R) (request : R) (completion : Pointer) (throws : Bool)
    (results : List ℤ) : Outcome (State R × Option (Result Pointer)) :=
  match s.ledger.newObject completion throws with
  | (ledger, false) => .returned (⟨ledger, s.ring⟩, none)
  | (ledger, true) =>
    match ctx.submitOne s.ring ⟨request, completion⟩ results with
    | .returned (ring, result) =>
      if result.hasError then
        .returned (⟨ledger.deleteObject completion, ring⟩, some (.fromError result.error))
      else .returned (⟨ledger, ring⟩, some (.fromValue completion))
    | .aborted => .aborted
    | .waiting => .waiting

def Queued (s : State R) (completion : Pointer) : Prop :=
  ∃ e ∈ s.ring.entries, e.userData = completion

/-- Either the SQE is queued and the completion lives, or nothing is left behind. -/
structure AllOrNothing (s : State R) (completion : Pointer) (s' : State R) (r : Result Pointer) :
    Prop where
  hasValue : r.hasValue = true ↔ Queued s' completion
  value : r.hasValue = true → r.value = some completion
  alive : Queued s' completion → s'.ledger.Alive completion
  hasError : r.hasError = true ↔ ¬ Queued s' completion
  destroyed : ¬ Queued s' completion →
    s'.ledger.destroyed completion = s.ledger.destroyed completion + 1
  deallocated : ¬ Queued s' completion →
    s'.ledger.deallocated completion = s.ledger.deallocated completion + 1
  noDangling : (∀ e ∈ s.ring.entries, s.ledger.Alive e.userData) →
    ∀ e ∈ s'.ring.entries, s'.ledger.Alive e.userData

/-- A queued SQE has its completion deleted and is reported as error zero; a refused one
leaves its completion allocated and is reported as a value. -/
inductive Ended (s : State R) (request : R) (completion : Pointer) :
    State R → Result Pointer → Prop where
  | freed (ring : SubmissionRing (Sqe R)) (queued : ⟨request, completion⟩ ∈ ring.entries) :
      Ended s request completion
        ⟨(s.ledger.newObject completion false).1.deleteObject completion, ring⟩ (.fromError 0)
  | leaked (ring : SubmissionRing (Sqe R)) :
      Ended s request completion ⟨(s.ledger.newObject completion false).1, ring⟩
        (.fromValue completion)

theorem submit_constructed {ctx : Context} {s s' : State R} {request : R} {completion : Pointer}
    {results : List ℤ} {r : Option (Result Pointer)}
    (h : submit ctx s request completion false results = .returned (s', r)) :
    ∃ ring result, ctx.submitOne s.ring ⟨request, completion⟩ results = .returned (ring, result) ∧
      (result.hasError = true ∧
          s' = ⟨(s.ledger.newObject completion false).1.deleteObject completion, ring⟩ ∧
          r = some (.fromError result.error) ∨
        result.hasError = false ∧ s' = ⟨(s.ledger.newObject completion false).1, ring⟩ ∧
          r = some (.fromValue completion)) := by
  rw [submit, show s.ledger.newObject completion false =
    ((s.ledger.newObject completion false).1, true) from rfl] at h
  simp only at h
  split at h
  · rename_i ring result hs
    refine ⟨ring, result, hs, ?_⟩
    split at h
    · rename_i herr
      cases h
      exact .inl ⟨herr, rfl, rfl⟩
    · rename_i herr
      cases h
      exact .inr ⟨Bool.eq_false_iff.mpr herr, rfl, rfl⟩
  · cases h
  · cases h

theorem submit_spec {ctx : Context} {s s' : State R} {request : R} {completion : Pointer}
    {throws : Bool} {results : List ℤ} {r : Result Pointer}
    (h : submit ctx s request completion throws results = .returned (s', some r)) :
    Ended s request completion s' r := by
  cases throws with
  | true => cases h
  | false =>
    obtain ⟨ring, result, hs, hr⟩ := submit_constructed h
    cases Context.submitOne_spec hs with
    | queued n =>
      rcases hr with ⟨-, rfl, hr⟩ | ⟨herr, -, -⟩
      · cases hr
        exact .freed _ (List.mem_append_right _ (List.mem_singleton_self _))
      · cases herr
    | refused n e he =>
      rcases hr with ⟨herr, -, -⟩ | ⟨-, rfl, hr⟩
      · rw [ResultVoid.hasError_fromError he] at herr
        cases herr
      · cases hr
        exact .leaked _

theorem Ended.hasValue {s s' : State R} {request : R} {completion : Pointer} {r : Result Pointer}
    (h : Ended s request completion s' r) : r.hasValue = false := by
  cases h <;> rfl

/-- The kernel is left with the address of a completion that is no longer there. -/
theorem queued_dangling {s s' : State R} {request : R} {completion : Pointer}
    (h : Ended s request completion s' (.fromError 0))
    (hfresh : s.ledger.constructed completion = s.ledger.destroyed completion) :
    Queued s' completion ∧ ¬ s'.ledger.Alive completion := by
  generalize hr : (Result.fromError 0 : Result Pointer) = r at h
  cases h with
  | freed ring queued =>
    refine ⟨⟨_, queued, rfl⟩, ?_⟩
    rw [Ledger.Alive, Ledger.constructed_deleteObject, Ledger.destroyed_deleteObject,
      Ledger.constructed_newObject, Ledger.destroyed_newObject, if_pos rfl, hfresh]
    omega
  | leaked ring => cases hr

/-- No call of `submit` that returns a result is all-or-nothing. -/
theorem submit_not_allOrNothing (ctx : Context) (s s' : State R) (request : R)
    (completion : Pointer) (throws : Bool) (results : List ℤ) (r : Result Pointer)
    (h : submit ctx s request completion throws results = .returned (s', some r)) :
    ¬ AllOrNothing s completion s' r := by
  intro ha
  have hspec := submit_spec h
  by_cases hq : Queued s' completion
  · exact absurd (ha.hasValue.mpr hq) (by simp [hspec.hasValue])
  · -- an SQE that is not in the ring was refused, and its completion has leaked
    cases hspec with
    | freed ring queued => exact hq ⟨_, queued, rfl⟩
    | leaked ring =>
      have hd := ha.destroyed hq
      rw [Ledger.destroyed_newObject] at hd
      omega

def fullRing : State ℕ := ⟨[], ⟨2, [⟨7, 100⟩, ⟨8, 200⟩]⟩⟩

/-- A ring that has room, and one that is full and whose flush fails. -/
theorem submit_not_allOrNothing_both :
    (∃ s', submit .unsynchronized (⟨[], ⟨2, []⟩⟩ : State ℕ) 5 100 false [] =
        .returned (s', some (.fromError 0)) ∧
      ¬ AllOrNothing (⟨[], ⟨2, []⟩⟩ : State ℕ) 100 s' (.fromError 0)) ∧
    ∃ s', submit .unsynchronized fullRing 5 300 false [-11] =
        .returned (s', some (.fromValue 300)) ∧
      ¬ AllOrNothing fullRing 300 s' (.fromValue 300) := by
  refine ⟨⟨_, rfl, ?_⟩, ⟨_, rfl, ?_⟩⟩
  · exact submit_not_allOrNothing .unsynchronized _ _ 5 100 false [] _ rfl
  · exact submit_not_allOrNothing .unsynchronized _ _ 5 300 false [-11] _ rfl

/-- The first submission to an empty ring is queued and reported as an error, and its
completion is gone. -/
theorem accepted_submission_freed : ∃ s' r,
    submit .unsynchronized (⟨[], ⟨2, []⟩⟩ : State ℕ) 5 100 false [] = .returned (s', some r) ∧
      s'.ring.entries = [⟨5, 100⟩] ∧ r.hasValue = false ∧ s'.ledger.destroyed 100 = 1 ∧
      ¬ AllOrNothing (⟨[], ⟨2, []⟩⟩ : State ℕ) 100 s' r := by
  refine ⟨_, _, rfl, rfl, rfl, by decide, ?_⟩
  intro ha
  exact absurd (ha.hasValue.mpr ⟨⟨5, 100⟩, List.mem_singleton_self _, rfl⟩) (by decide)

end BadIo.Uring
