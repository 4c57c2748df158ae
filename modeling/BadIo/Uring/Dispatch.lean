import BadIo.Uring.Completion
import BadIo.Uring.Pending

namespace BadIo.Uring.Dispatch

open AllocatorAware Native

/-- The operations are numbered, and the SQEs carry the number as their request. -/
structure State where
  uring : Uring.State ℕ
  /-- The SQEs that have been accepted and whose last CQE has not come. -/
  outstanding : List (Sqe ℕ)
  /-- The operation whose completion has been constructed at an address last. -/
  owner : Pointer → Option ℕ
  calls : List Pending.Call
  /-- For each CQE its operation, and the operation whose callback it has invoked. -/
  invoked : List (ℕ × Option ℕ)
  next : ℕ

def State.new (capacity : ℕ) : State := ⟨⟨[], ⟨capacity, []⟩⟩, [], fun _ => none, [], [], 0⟩

inductive Act where
  | submit (completion : Pointer) (throws : Bool) (results : List ℤ)
  | wait (result : ℤ)
  | complete (sqe : Sqe ℕ) (more : Bool)
  /-- The callback of the `n`-th call of `complete` ends; the innermost call comes first. -/
  | finish (n : ℕ) (throws : Bool)
  deriving DecidableEq

def step (ctx : Context) (s : State) : Act → Option State
  | .submit completion throws results =>
    -- the allocator does not hand out the address of a living object
    if s.uring.ledger.Alive completion then none
    else match Uring.submit ctx s.uring s.next completion throws results with
      | .returned (uring, r) => some { s with
          uring
          outstanding :=
            if Pending.accepted r then s.outstanding ++ [⟨s.next, completion⟩] else s.outstanding
          owner := if throws then s.owner else Function.update s.owner completion (some s.next)
          next := s.next + 1 }
      | .aborted => none
      | .waiting => none
  | .wait result => some { s with uring.ring := s.uring.ring.submit result }
  | .complete sqe more =>
    if sqe ∈ s.outstanding ∧ s.uring.ledger.Alive sqe.userData then some { s with
      outstanding := if more then s.outstanding else s.outstanding.erase sqe
      calls := ⟨sqe.userData, more⟩ :: s.calls
      invoked := s.invoked ++ [(sqe.request, s.owner sqe.userData)] }
    else none
  | .finish n throws => (s.calls[n]?).map fun call => { s with
      uring.ledger :=
        (Completion.invoke ⟨s.uring.ledger, []⟩ call.userData call.more throws).1.ledger
      calls := s.calls.eraseIdx n }

def machine (ctx : Context) : Machine State Act := ⟨step ctx⟩

/-- The completion of an accepted operation is gone again when `submit` returns; only that
of a refused one stays. -/
theorem submit_ledger {ctx : Context} {s s' : Uring.State ℕ} {request : ℕ}
    {completion : Pointer} {throws : Bool} {results : List ℤ} {r : Option (Result Pointer)}
    (h : Uring.submit ctx s request completion throws results = .returned (s', r)) :
    throws = true ∧ Pending.accepted r = false ∧
        s'.ledger = (s.ledger.newObject completion true).1 ∨
      throws = false ∧ Pending.accepted r = true ∧
        s'.ledger = (s.ledger.newObject completion false).1.deleteObject completion ∨
      throws = false ∧ Pending.accepted r = false ∧
        s'.ledger = (s.ledger.newObject completion false).1 := by
  cases throws with
  | true =>
    cases h
    exact .inl ⟨rfl, rfl, rfl⟩
  | false =>
    obtain ⟨ring, result, -, ⟨-, rfl, rfl⟩ | ⟨-, rfl, rfl⟩⟩ := submit_constructed h
    · exact .inr (.inl ⟨rfl, rfl, rfl⟩)
    · exact .inr (.inr ⟨rfl, rfl, rfl⟩)

theorem constructed_newObject_true (l : Ledger) (p q : Pointer) :
    (l.newObject p true).1.constructed q = l.constructed q := by
  simp [Ledger.newObject, Ledger.allocateObject, Ledger.deallocateObject, Ledger.constructed]

def Single (l : Ledger) : Prop := ∀ p, l.constructed p ≤ l.destroyed p + 1

/-- No living completion belongs to an outstanding operation. -/
structure Inv (s : State) : Prop where
  single : Single s.uring.ledger
  numbered : ∀ e ∈ s.outstanding, e.request < s.next
  owned : ∀ p op, s.owner p = some op → op < s.next
  living : ∀ p, s.uring.ledger.Alive p → ∃ op, s.owner p = some op
  astray : ∀ e ∈ s.outstanding, ∀ p, s.uring.ledger.Alive p → s.owner p ≠ some e.request
  invoked : ∀ c ∈ s.invoked, ∃ op, c.2 = some op ∧ op ≠ c.1

theorem new_inv (capacity : ℕ) : Inv (.new capacity) where
  single _ := Nat.zero_le _
  numbered _ h := absurd h List.not_mem_nil
  owned _ _ h := nomatch h
  living _ h := nomatch (show 0 = 1 from h)
  astray _ h := absurd h List.not_mem_nil
  invoked _ h := absurd h List.not_mem_nil

section Ledgers

variable {l : Ledger} {p q : Pointer}

theorem single_newObject (h : Single l) (hp : ¬ l.Alive p) : Single (l.newObject p false).1 := by
  intro q
  have hq := h q
  rw [Ledger.constructed_newObject, Ledger.destroyed_newObject]
  by_cases hpq : p = q
  · subst hpq
    rw [Ledger.Alive] at hp
    rw [if_pos rfl]
    omega
  · rw [if_neg hpq]
    exact hq

theorem single_deleteObject (h : Single l) : Single (l.deleteObject p) := by
  intro q
  have hq := h q
  rw [Ledger.constructed_deleteObject, Ledger.destroyed_deleteObject]
  omega

theorem alive_newObject_of_ne (hpq : q ≠ p) (h : (l.newObject p false).1.Alive q) : l.Alive q := by
  rwa [Ledger.Alive, Ledger.constructed_newObject, Ledger.destroyed_newObject,
    if_neg (Ne.symm hpq)] at h

theorem alive_of_deleteObject (hs : Single l) (h : (l.deleteObject p).Alive q) :
    l.Alive q ∧ q ≠ p := by
  have hq := hs q
  rw [Ledger.Alive, Ledger.constructed_deleteObject, Ledger.destroyed_deleteObject] at h
  by_cases hpq : p = q
  · rw [if_pos hpq] at h
    omega
  · rw [if_neg hpq] at h
    exact ⟨h, Ne.symm hpq⟩

end Ledgers

variable {ctx : Context} {s s' : State}

theorem Inv.owned_update (hs : Inv s) {completion p : Pointer} {op : ℕ}
    (ho : Function.update s.owner completion (some s.next) p = some op) : op < s.next + 1 := by
  by_cases hpc : p = completion
  · subst hpc
    rw [Function.update_self] at ho
    cases ho
    exact Nat.lt_succ_self _
  · rw [Function.update_of_ne hpc] at ho
    exact Nat.lt_succ_of_lt (hs.owned p op ho)

theorem Inv.living_update (hs : Inv s) {completion q : Pointer}
    (h : (s.uring.ledger.newObject completion false).1.Alive q) :
    ∃ op, Function.update s.owner completion (some s.next) q = some op := by
  by_cases hqc : q = completion
  · subst hqc
    exact ⟨s.next, Function.update_self ..⟩
  · obtain ⟨op, ho⟩ := hs.living q (alive_newObject_of_ne hqc h)
    exact ⟨op, by rw [Function.update_of_ne hqc, ho]⟩

theorem Inv.submitted (hs : Inv s) {uring : Uring.State ℕ} {completion : Pointer}
    {throws : Bool} {results : List ℤ} {r : Option (Result Pointer)}
    (hp : ¬ s.uring.ledger.Alive completion)
    (h : Uring.submit ctx s.uring s.next completion throws results = .returned (uring, r)) :
    Inv { s with
      uring
      outstanding :=
        if Pending.accepted r then s.outstanding ++ [⟨s.next, completion⟩] else s.outstanding
      owner := if throws then s.owner else Function.update s.owner completion (some s.next)
      next := s.next + 1 } := by
  -- a new operation leaves the objects of the others alone, and one of its own only if it has
  -- been refused
  have hold : ∀ e ∈ s.outstanding, e.request < s.next + 1 :=
    fun e he => Nat.lt_succ_of_lt (hs.numbered e he)
  rcases submit_ledger h with ⟨rfl, hr, hl⟩ | ⟨rfl, hr, hl⟩ | ⟨rfl, hr, hl⟩
  · rw [hr]
    refine ⟨?_, hold, fun p op ho => Nat.lt_succ_of_lt (hs.owned p op ho), ?_, ?_, hs.invoked⟩
    · intro q
      change uring.ledger.constructed q ≤ uring.ledger.destroyed q + 1
      rw [hl, constructed_newObject_true, Ledger.destroyed_newObject]
      exact hs.single q
    · intro q hq
      change uring.ledger.Alive q at hq
      rw [hl, Ledger.Alive, constructed_newObject_true, Ledger.destroyed_newObject] at hq
      exact hs.living q hq
    · intro e he q hq
      change uring.ledger.Alive q at hq
      rw [hl, Ledger.Alive, constructed_newObject_true, Ledger.destroyed_newObject] at hq
      exact hs.astray e he q hq
  · have hsingle := single_newObject hs.single hp
    rw [hr]
    refine ⟨hl ▸ single_deleteObject hsingle, ?_, fun _ _ => hs.owned_update, ?_, ?_, hs.invoked⟩
    · intro e he
      rcases List.mem_append.mp he with he | he
      · exact hold e he
      · rw [List.mem_singleton.mp he]
        exact Nat.lt_succ_self _
    · intro q hq
      change uring.ledger.Alive q at hq
      rw [hl] at hq
      exact hs.living_update (alive_of_deleteObject hsingle hq).1
    · intro e he q hq
      change uring.ledger.Alive q at hq
      rw [hl] at hq
      obtain ⟨hq', hne⟩ := alive_of_deleteObject hsingle hq
      have halive := alive_newObject_of_ne hne hq'
      change Function.update s.owner completion (some s.next) q ≠ _
      rw [Function.update_of_ne hne]
      rcases List.mem_append.mp he with he | he
      · exact hs.astray e he q halive
      · -- the objects that live were numbered before
        rw [List.mem_singleton.mp he]
        exact fun ho => Nat.lt_irrefl _ (hs.owned q s.next ho)
  · rw [hr]
    refine ⟨hl ▸ single_newObject hs.single hp, hold, fun _ _ => hs.owned_update,
      fun q hq => hs.living_update (hl ▸ hq), ?_, hs.invoked⟩
    intro e he q hq
    change uring.ledger.Alive q at hq
    rw [hl] at hq
    change Function.update s.owner completion (some s.next) q ≠ _
    by_cases hqc : q = completion
    · subst hqc
      rw [Function.update_self]
      exact fun ho => Nat.lt_irrefl _ (Option.some.inj ho ▸ hs.numbered e he)
    · rw [Function.update_of_ne hqc]
      exact hs.astray e he q (alive_newObject_of_ne hqc hq)

theorem Inv.completed (hs : Inv s) {sqe : Sqe ℕ} (hmem : sqe ∈ s.outstanding)
    (halive : s.uring.ledger.Alive sqe.userData) (more : Bool) :
    Inv { s with
      outstanding := if more then s.outstanding else s.outstanding.erase sqe
      calls := ⟨sqe.userData, more⟩ :: s.calls
      invoked := s.invoked ++ [(sqe.request, s.owner sqe.userData)] } := by
  have hsub : ∀ e ∈ (if more then s.outstanding else s.outstanding.erase sqe),
      e ∈ s.outstanding := by
    intro e he
    split at he
    · exact he
    · exact List.mem_of_mem_erase he
  refine ⟨hs.single, fun e he => hs.numbered e (hsub e he), hs.owned, hs.living,
    fun e he => hs.astray e (hsub e he), fun c hc => ?_⟩
  rcases List.mem_append.mp hc with hc | hc
  · exact hs.invoked c hc
  · rw [List.mem_singleton.mp hc]
    obtain ⟨op, ho⟩ := hs.living sqe.userData halive
    refine ⟨op, ho, fun hop => ?_⟩
    rw [hop] at ho
    exact hs.astray sqe hmem _ halive ho

theorem Inv.finished (hs : Inv s) (call : Pending.Call) (throws : Bool)
    (calls : List Pending.Call) :
    Inv { s with
      uring.ledger :=
        (Completion.invoke ⟨s.uring.ledger, []⟩ call.userData call.more throws).1.ledger
      calls } := by
  rw [Completion.invoke_ledger ⟨s.uring.ledger, []⟩ ⟨call.userData, call.more, throws⟩]
  split
  · have halive : ∀ p, (s.uring.ledger.deleteObject call.userData).Alive p →
        s.uring.ledger.Alive p := fun p hp => (alive_of_deleteObject hs.single hp).1
    exact ⟨single_deleteObject hs.single, hs.numbered, hs.owned,
      fun p hp => hs.living p (halive p hp), fun e he p hp => hs.astray e he p (halive p hp),
      hs.invoked⟩
  · exact ⟨hs.single, hs.numbered, hs.owned, hs.living, hs.astray, hs.invoked⟩

theorem step_inv (hs : Inv s) {a : Act} (h : (machine ctx).step s a = some s') : Inv s' := by
  change step ctx s a = some s' at h
  cases a with
  | submit completion throws results =>
    rw [step] at h
    split at h
    · cases h
    split at h
    · rename_i hp _ uring r hsubmit
      cases h
      exact hs.submitted hp hsubmit
    · cases h
    · cases h
  | wait result =>
    cases h
    exact ⟨hs.single, hs.numbered, hs.owned, hs.living, hs.astray, hs.invoked⟩
  | complete sqe more =>
    rw [step] at h
    split at h
    · rename_i hc
      cases h
      exact hs.completed hc.1 hc.2 more
    · cases h
  | finish n throws =>
    obtain ⟨call, -, rfl⟩ := Option.map_eq_some_iff.mp h
    exact hs.finished call throws _

theorem run_inv {capacity : ℕ} {as : List Act}
    (h : (machine ctx).run (.new capacity) as = some s) : Inv s :=
  Machine.invariant_of_step (fun _ _ _ hs hstep => step_inv hs hstep) (new_inv capacity) h

/-- Whatever is submitted, with whatever outcomes and on whatever addresses the allocator
hands out, no CQE gets to the callback of the operation that it belongs to: the user data
of an outstanding operation is the address of no living completion, or of the completion
of another operation, and it is always another operation's callback that is invoked. -/
theorem callback_never_its_own {capacity : ℕ} {as : List Act}
    (h : (machine ctx).run (.new capacity) as = some s) :
    (∀ e ∈ s.outstanding, s.uring.ledger.Alive e.userData → s.owner e.userData ≠ some e.request) ∧
      ∀ c ∈ s.invoked, ∃ op, c.2 = some op ∧ op ≠ c.1 := by
  have hs := run_inv h
  exact ⟨fun e he => hs.astray e he e.userData, hs.invoked⟩

/-- The first operation is accepted, and its completion deleted; the second one gets the
same address and is refused by the full ring.  The CQE of the first one then invokes the
callback of the second one. -/
theorem callback_never_its_own_reused : ∃ s,
    (machine .unsynchronized).run (.new 1)
        [.submit 100 false [], .submit 100 false [-11], .complete ⟨0, 100⟩ false] = some s ∧
      s.invoked = [(0, some 1)] ∧ ∀ c ∈ s.invoked, ∃ op, c.2 = some op ∧ op ≠ c.1 := by
  obtain ⟨s, h, hi⟩ : ∃ s,
      (machine .unsynchronized).run (.new 1)
          [.submit 100 false [], .submit 100 false [-11], .complete ⟨0, 100⟩ false] = some s ∧
        s.invoked = [(0, some 1)] := ⟨_, rfl, rfl⟩
  exact ⟨s, h, hi, (callback_never_its_own h).2⟩

end BadIo.Uring.Dispatch
