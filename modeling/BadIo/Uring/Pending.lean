import BadIo.Machine
import BadIo.Uring.Completion
import BadIo.Uring.Submit

namespace BadIo.Uring.Pending

open AllocatorAware Native

structure Call where
  userData : Pointer
  more : Bool
  deriving DecidableEq

/-- The `outstanding` operations have their SQE accepted and their last CQE not yet
completed. -/
structure State (R : Type*) where
  uring : Uring.State R
  mPending : ℕ
  outstanding : List Pointer
  calls : List Call
  deriving DecidableEq

variable {R : Type*}

def State.new (capacity : ℕ) : State R := ⟨⟨[], ⟨capacity, []⟩⟩, 0, [], []⟩

def State.pending (s : State R) : ℕ := s.mPending

inductive Act (R : Type*) where
  | submit (request : R) (completion : Pointer) (throws : Bool) (results : List ℤ)
  | wait (result : ℤ)
  | complete (userData : Pointer) (more : Bool)
  /-- The callback of the `n`-th call of `complete` ends; on one thread it is that of the
  innermost call, which comes first. -/
  | finish (n : ℕ) (throws : Bool)
  deriving DecidableEq

/-- `submit` returns `from_error` when the SQE is in the ring, and `from_value` when it has
been refused (`submit_entries`). -/
def accepted : Option (Result Pointer) → Bool
  | none => false
  | some r => !r.second.isLive

def step (ctx : Context) (s : State R) : Act R → Option (State R)
  | .submit request completion throws results =>
    match Uring.submit ctx s.uring request completion throws results with
    | .returned (uring, r) => some { s with
        uring
        outstanding := if accepted r then completion :: s.outstanding else s.outstanding }
    | .aborted => none
    | .waiting => none
  | .wait result => some { s with uring.ring := s.uring.ring.submit result }
  | .complete userData more =>
    -- the kernel has CQEs for outstanding operations only
    if userData ∈ s.outstanding then some { s with
      outstanding := if more then s.outstanding else s.outstanding.erase userData
      calls := ⟨userData, more⟩ :: s.calls }
    else none
  | .finish n throws => (s.calls[n]?).map fun call => { s with
      uring.ledger :=
        (Completion.invoke ⟨s.uring.ledger, []⟩ call.userData call.more throws).1.ledger
      calls := s.calls.eraseIdx n }

def machine (ctx : Context) (R : Type*) : Machine (State R) (Act R) := ⟨step ctx⟩

/-- A turn of `run_until_complete` asks each runner, and goes on if one has work. -/
def keepRunning (runners : List ℕ) : Bool := runners.any fun pending => pending != 0

/-- Between calls the outstanding operations are counted, and a loop that is driven by the
count does not stop while there are any. -/
structure Counted (s : State R) : Prop where
  pending : s.pending = s.outstanding.length
  stops : keepRunning [s.pending] = false → s.outstanding = []

/-- `io_uring_get_sqe` finds room, at once or after flushes that the loop of the
unsynchronized context goes on from. -/
def FindsRoom {E : Type*} (q : SubmissionRing E) (results : List ℤ) : Prop :=
  ∃ flushed, flushed <+: results ∧ (∀ r ∈ flushed, r = 0 ∨ r = EINTR) ∧
    (flushed.foldl SubmissionRing.submit q).hasRoom = true

/-- The synchronized context does not return from `submit_one` before it has found room. -/
def Accepts (ctx : Context) (s : State R) : Act R → Prop
  | .submit _ _ throws results =>
    throws = false ∧ (ctx = .unsynchronized → FindsRoom s.uring.ring results)
  | _ => False

section Submission

variable {E : Type*} {q q' : SubmissionRing E} {submission : E} {result : ℤ} {results : List ℤ}
  {r : ResultVoid}

theorem findsRoom_of_hasRoom (h : q.hasRoom = true) : FindsRoom q results :=
  ⟨[], List.nil_prefix, nofun, h⟩

theorem findsRoom_cons_again (hroom : ¬ q.hasRoom = true) (hr : result = 0 ∨ result = EINTR) :
    FindsRoom q (result :: results) ↔ FindsRoom (q.submit result) results := by
  constructor
  · rintro ⟨flushed, hprefix, hall, h⟩
    cases flushed with
    | nil => exact absurd h hroom
    | cons first flushed =>
      obtain ⟨rfl, hrest⟩ := List.cons_prefix_cons.mp hprefix
      exact ⟨flushed, hrest, fun r hr => hall r (List.mem_cons_of_mem _ hr), h⟩
  · rintro ⟨flushed, hprefix, hall, h⟩
    refine ⟨result :: flushed, List.cons_prefix_cons.mpr ⟨rfl, hprefix⟩, ?_, h⟩
    intro r hmem
    rcases List.mem_cons.mp hmem with rfl | hmem
    · exact hr
    · exact hall r hmem

theorem not_findsRoom_cons (hroom : ¬ q.hasRoom = true) (h₀ : result ≠ 0) (h₁ : result ≠ EINTR) :
    ¬ FindsRoom q (result :: results) := by
  rintro ⟨flushed, hprefix, hall, h⟩
  cases flushed with
  | nil => exact hroom h
  | cons first flushed =>
    obtain ⟨rfl, -⟩ := List.cons_prefix_cons.mp hprefix
    exact (hall first List.mem_cons_self).elim h₀ h₁

theorem hasError_submitOne_unsynchronized
    (h : Unsynchronized.submitOne q submission results = .returned (q', r)) :
    r.hasError = true ↔ FindsRoom q results := by
  induction results generalizing q with
  | nil =>
    rw [Unsynchronized.submitOne] at h
    split at h
    · rename_i hroom
      cases h
      exact iff_of_true ResultVoid.hasError_fromValue (findsRoom_of_hasRoom hroom)
    · cases h
  | cons result results ih =>
    rw [Unsynchronized.submitOne] at h
    split at h
    · rename_i hroom
      cases h
      exact iff_of_true ResultVoid.hasError_fromValue (findsRoom_of_hasRoom hroom)
    · rename_i hroom
      rcases turn_cases result with ⟨hagain, ht⟩ | ⟨-, ht⟩ | ⟨h₀, h₁, -, ht⟩
      · rw [ht] at h
        exact (ih h).trans (findsRoom_cons_again hroom hagain).symm
      · rw [ht] at h
        cases h
      · rw [ht] at h
        cases h
        refine iff_of_false ?_ (not_findsRoom_cons hroom h₀ h₁)
        rw [ResultVoid.hasError_fromError (fun he => h₀ (Int.neg_eq_zero.mp he))]
        exact Bool.false_ne_true

theorem hasError_submitOne_synchronized
    (h : Synchronized.submitOne q submission results = .returned (q', r)) : r.hasError = true := by
  unfold Synchronized.submitOne Synchronized.submitMany at h
  split at h
  · cases h
    exact ResultVoid.hasError_fromValue
  · rename_i hs
    cases (Synchronized.getSqe_spec hs).1
  · cases h
  · cases h

theorem hasError_submitOne {ctx : Context}
    (h : ctx.submitOne q submission results = .returned (q', r)) :
    r.hasError = true ↔ (ctx = .unsynchronized → FindsRoom q results) := by
  cases ctx with
  | unsynchronized =>
    rw [hasError_submitOne_unsynchronized h, imp_iff_right rfl]
  | synchronized =>
    exact iff_of_true (hasError_submitOne_synchronized h) nofun

end Submission

section Submit

variable {ctx : Context} {s s' : Uring.State R} {request : R} {completion : Pointer}
  {throws : Bool} {results : List ℤ} {r : Option (Result Pointer)}

theorem submit_cases
    (h : Uring.submit ctx s request completion throws results = .returned (s', r)) :
    throws = true ∧ accepted r = false ∧ s'.ring = s.ring ∨
      throws = false ∧ ∃ result,
        ctx.submitOne s.ring ⟨request, completion⟩ results = .returned (s'.ring, result) ∧
          accepted r = result.hasError := by
  cases throws with
  | true =>
    cases h
    exact .inl ⟨rfl, rfl, rfl⟩
  | false =>
    obtain ⟨ring, result, hs, hr⟩ := submit_constructed h
    refine .inr ⟨rfl, result, ?_⟩
    rcases hr with ⟨herr, rfl, rfl⟩ | ⟨herr, rfl, rfl⟩
    · exact ⟨hs, herr.symm⟩
    · exact ⟨hs, herr.symm⟩

theorem submit_entries
    (h : Uring.submit ctx s request completion throws results = .returned (s', r)) :
    ∃ n, s'.ring.entries = s.ring.entries.drop n ++
      if accepted r then [⟨request, completion⟩] else [] := by
  rcases submit_cases h with ⟨-, hr, hring⟩ | ⟨-, result, hs, hr⟩
  · rw [hr, hring]
    exact ⟨0, (List.append_nil _).symm⟩
  · rw [hr]
    generalize s'.ring = ring at hs ⊢
    cases Context.submitOne_spec hs with
    | queued n => exact ⟨n, rfl⟩
    | refused n e he =>
      rw [ResultVoid.hasError_fromError he]
      exact ⟨n, (List.append_nil _).symm⟩

theorem accepted_iff
    (h : Uring.submit ctx s request completion throws results = .returned (s', r)) :
    accepted r = true ↔
      throws = false ∧ (ctx = .unsynchronized → FindsRoom s.ring results) := by
  rcases submit_cases h with ⟨rfl, hr, -⟩ | ⟨rfl, result, hs, hr⟩
  · rw [hr]
    exact iff_of_false Bool.false_ne_true nofun
  · rw [hr, hasError_submitOne hs, eq_self, true_and]

end Submit

variable {ctx : Context} {s s' : State R} {a : Act R}

/-- Nothing writes the member. -/
theorem step_mPending (h : (machine ctx R).step s a = some s') : s'.mPending = s.mPending := by
  change step ctx s a = some s' at h
  cases a with
  | submit request completion throws results =>
    rw [step] at h
    split at h
    · cases h
      rfl
    · cases h
    · cases h
  | wait result =>
    cases h
    rfl
  | complete userData more =>
    simp only [step, Option.ite_none_right_eq_some, Option.some.injEq] at h
    obtain ⟨-, rfl⟩ := h
    rfl
  | finish n throws =>
    obtain ⟨call, -, rfl⟩ := Option.map_eq_some_iff.mp h
    rfl

theorem run_pending {capacity : ℕ} {acts : List (Act R)}
    (h : (machine ctx R).run (.new capacity) acts = some s) : s.pending = 0 :=
  Machine.invariant_of_step (I := fun s => s.mPending = 0)
    (fun _ _ _ hs hstep => (step_mPending hstep).trans hs) rfl h

theorem counted_iff_outstanding {capacity : ℕ} {acts : List (Act R)}
    (h : (machine ctx R).run (.new capacity) acts = some s) : Counted s ↔ s.outstanding = [] := by
  have hp := run_pending h
  constructor
  · intro hcounted
    apply hcounted.stops
    rw [hp]
    rfl
  · intro ho
    exact ⟨by rw [hp, ho, List.length_nil], fun _ => ho⟩

structure Untouched (s : State R) : Prop where
  mPending : s.mPending = 0
  outstanding : s.outstanding = []
  calls : s.calls = []

theorem new_untouched (capacity : ℕ) : Untouched (.new capacity : State R) := ⟨rfl, rfl, rfl⟩

theorem Untouched.counted (h : Untouched s) : Counted s where
  pending := by rw [State.pending, h.mPending, h.outstanding, List.length_nil]
  stops _ := h.outstanding

theorem step_untouched (hs : Untouched s) (h : (machine ctx R).step s a = some s')
    (ha : ¬ Accepts ctx s a) : Untouched s' := by
  obtain ⟨hp, ho, hc⟩ := hs
  change step ctx s a = some s' at h
  cases a with
  | submit request completion throws results =>
    rw [step] at h
    split at h
    · rename_i uring r hsubmit
      cases h
      refine ⟨hp, ?_, hc⟩
      rw [Bool.eq_false_iff.mpr (fun hr => ha ((accepted_iff hsubmit).mp hr))]
      exact ho
    · cases h
    · cases h
  | wait result =>
    cases h
    exact ⟨hp, ho, hc⟩
  | complete userData more =>
    simp only [step, Option.ite_none_right_eq_some] at h
    exact absurd (ho ▸ h.1) List.not_mem_nil
  | finish n throws =>
    obtain ⟨call, hn, -⟩ := Option.map_eq_some_iff.mp h
    rw [hc] at hn
    cases hn

theorem step_accepts (hs : Untouched s) (h : (machine ctx R).step s a = some s')
    (ha : Accepts ctx s a) : s'.calls = [] ∧ ¬ Counted s' := by
  cases a with
  | submit request completion throws results =>
    have hp := step_mPending h
    change step ctx s (.submit request completion throws results) = some s' at h
    rw [step] at h
    split at h
    · rename_i uring r hsubmit
      cases h
      refine ⟨hs.calls, fun hcounted => ?_⟩
      have hlen := hcounted.pending
      simp only [State.pending, (accepted_iff hsubmit).mpr ha, if_true, hs.mPending,
        List.length_cons] at hlen
      omega
    · cases h
    · cases h
  | _ => exact ha.elim

/-- The count is right between the calls of a run exactly as long as no operation is
accepted. -/
theorem counted_iff_none_accepted (ctx : Context) (capacity : ℕ) (acts : List (Act R)) :
    (machine ctx R).Along (fun _ _ s' => s'.calls = [] → Counted s') (.new capacity) acts ↔
      (machine ctx R).Along (fun s a _ => ¬ Accepts ctx s a) (.new capacity) acts := by
  refine Machine.along_iff_along (I := Untouched) (A := fun _ _ _ => True) ?_ ?_
    (new_untouched capacity) (Machine.along_true _ _)
  · intro s a s' hs _ h
    constructor
    · intro hcounted ha
      obtain ⟨hc, hn⟩ := step_accepts hs h ha
      exact hn (hcounted hc)
    · intro ha _
      exact (step_untouched hs h ha).counted
  · intro s a s' hs _ ha h
    exact step_untouched hs h ha

/-- One operation is outstanding, and the loop stops. -/
theorem first_operation_uncounted :
    (machine .unsynchronized ℕ).run (.new 2) [.submit 5 100 false []] =
        some ⟨⟨[.allocate 100 1, .construct 100, .destroy 100, .deallocate 100 0],
          ⟨2, [⟨5, 100⟩]⟩⟩, 0, [100], []⟩ ∧
      keepRunning [(0 : ℕ)] = false ∧
      ¬ (machine .unsynchronized ℕ).Along (fun _ _ s' => s'.calls = [] → Counted s') (.new 2)
        [.submit 5 100 false []] := by
  refine ⟨rfl, rfl, fun h => ?_⟩
  have hcounted := h.nth 0 rfl rfl rfl
  exact absurd (hcounted rfl).pending (by decide)

end BadIo.Uring.Pending
