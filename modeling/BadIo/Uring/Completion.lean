import Mathlib.Data.List.Induction
import Mathlib.Data.List.Nodup
import BadIo.AllocatorAware
import BadIo.Machine

namespace BadIo.Uring.Completion

open AllocatorAware

/-- A CQE on its way to `complete`, and what the callback does when it is invoked. -/
structure Delivery where
  userData : Pointer
  more : Bool
  throws : Bool
  deriving DecidableEq

structure State where
  ledger : Ledger
  invoked : List Pointer
  deriving DecidableEq

/-- `Completion::invoke`; `false` is an exception passing through. -/
def invoke (s : State) (this : Pointer) (more throws : Bool) : State × Bool :=
  let s := { s with invoked := s.invoked ++ [this] }
  if more then (s, !throws)
  else if throws then ({ s with ledger := s.ledger.deleteObject this }, false)
  else (s, true)

/-- The user data must be the address of a living completion. -/
def complete (s : State) (cqe : Delivery) : Option (State × Bool) :=
  if s.ledger.Alive cqe.userData then some (invoke s cqe.userData cqe.more cqe.throws) else none

/-- The caller of `complete` survives an exception. -/
def machine : Machine State Delivery where
  step s d := (complete s d).map Prod.fst

def acceptAll (accepted : List Pointer) : Ledger :=
  accepted.foldl (fun l p => (l.newObject p false).1) []

def initial (accepted : List Pointer) : State := ⟨acceptAll accepted, []⟩

/-- What the kernel promises: every CQE belongs to an accepted operation, and only the
last one of an operation comes without `IORING_CQE_F_MORE`. -/
structure WellDelivered (accepted : List Pointer) (ds : List Delivery) : Prop where
  accepted : ∀ d ∈ ds, d.userData ∈ accepted
  lastOnly : ds.Pairwise fun d e => d.userData = e.userData → d.more = true

def Delivery.finishes (p : Pointer) (d : Delivery) : Bool := d.userData = p && !d.more

def Delivery.deletes (p : Pointer) (d : Delivery) : Bool := d.finishes p && d.throws

/-- One invocation for each CQE, each of a living completion, and each completion destroyed
and deallocated exactly once if its last CQE has come, and not at all before. -/
structure LifetimesRight (accepted : List Pointer) (ds : List Delivery) (s : State) : Prop where
  invoked : s.invoked = ds.map Delivery.userData
  kept : ∀ p ∈ accepted, ds.countP (Delivery.finishes p) = 0 →
    s.ledger.Alive p ∧ s.ledger.deallocated p = 0
  destroyed : ∀ p ∈ accepted, 0 < ds.countP (Delivery.finishes p) → s.ledger.destroyed p = 1
  deallocated : ∀ p ∈ accepted, 0 < ds.countP (Delivery.finishes p) → s.ledger.deallocated p = 1

theorem acceptAll_counts (accepted : List Pointer) (p : Pointer) :
    (acceptAll accepted).constructed p = accepted.count p ∧
      (acceptAll accepted).destroyed p = 0 ∧ (acceptAll accepted).deallocated p = 0 := by
  induction accepted using List.reverseRecOn with
  | nil => exact ⟨rfl, rfl, rfl⟩
  | append_singleton accepted q ih =>
    have hsnoc : acceptAll (accepted ++ [q]) = ((acceptAll accepted).newObject q false).1 := by
      rw [acceptAll, List.foldl_append]
      rfl
    rw [hsnoc, Ledger.constructed_newObject, Ledger.destroyed_newObject,
      Ledger.deallocated_newObject, List.count_append, List.count_singleton, ih.1]
    refine ⟨?_, ih.2⟩
    by_cases h : q = p
    · simp [h]
    · simp [h]

structure Settled (accepted : List Pointer) (ds : List Delivery) (s : State) : Prop where
  invoked : s.invoked = ds.map Delivery.userData
  constructed : ∀ p, s.ledger.constructed p = accepted.count p
  destroyed : ∀ p, s.ledger.destroyed p = ds.countP (Delivery.deletes p)
  deallocated : ∀ p, s.ledger.deallocated p = ds.countP (Delivery.deletes p)

theorem invoke_ledger (s : State) (d : Delivery) :
    (invoke s d.userData d.more d.throws).1.ledger =
      if d.deletes d.userData then s.ledger.deleteObject d.userData else s.ledger := by
  obtain ⟨u, more, throws⟩ := d
  cases more with
  | true => simp [invoke, Delivery.deletes, Delivery.finishes]
  | false => cases throws <;> simp [invoke, Delivery.deletes, Delivery.finishes]

theorem deletes_iff (d : Delivery) (p : Pointer) :
    d.deletes p = true ↔ d.deletes d.userData = true ∧ d.userData = p := by
  simp only [Delivery.deletes, Delivery.finishes, Bool.and_eq_true, decide_eq_true_eq]
  tauto

theorem invoke_constructed (s : State) (d : Delivery) (p : Pointer) :
    (invoke s d.userData d.more d.throws).1.ledger.constructed p = s.ledger.constructed p := by
  rw [invoke_ledger]
  split
  · exact Ledger.constructed_deleteObject s.ledger d.userData p
  · rfl

theorem invoke_counted {count : Ledger → Pointer → ℕ}
    (hcount : ∀ l p q, count (l.deleteObject p) q = count l q + if p = q then 1 else 0) (s : State)
    (d : Delivery) (p : Pointer) :
    count (invoke s d.userData d.more d.throws).1.ledger p =
      count s.ledger p + if d.deletes p then 1 else 0 := by
  simp only [invoke_ledger, deletes_iff d p]
  split
  · rename_i h
    simp only [h, true_and]
    exact hcount s.ledger d.userData p
  · rename_i h
    simp only [h, Bool.false_eq_true, false_and, if_false, Nat.add_zero]

theorem invoke_destroyed (s : State) (d : Delivery) (p : Pointer) :
    (invoke s d.userData d.more d.throws).1.ledger.destroyed p =
      s.ledger.destroyed p + if d.deletes p then 1 else 0 :=
  invoke_counted Ledger.destroyed_deleteObject s d p

theorem invoke_deallocated (s : State) (d : Delivery) (p : Pointer) :
    (invoke s d.userData d.more d.throws).1.ledger.deallocated p =
      s.ledger.deallocated p + if d.deletes p then 1 else 0 :=
  invoke_counted Ledger.deallocated_deleteObject s d p

theorem invoke_invoked (s : State) (this : Pointer) (more throws : Bool) :
    (invoke s this more throws).1.invoked = s.invoked ++ [this] := by
  cases more <;> cases throws <;> rfl

theorem invoke_settled {accepted : List Pointer} {ds : List Delivery} {s : State}
    (h : Settled accepted ds s) (d : Delivery) :
    Settled accepted (ds ++ [d]) (invoke s d.userData d.more d.throws).1 where
  invoked := by rw [invoke_invoked, h.invoked, List.map_append, List.map_singleton]
  constructed p := (invoke_constructed s d p).trans (h.constructed p)
  destroyed p := by rw [invoke_destroyed, h.destroyed, List.countP_append, List.countP_singleton]
  deallocated p := by
    rw [invoke_deallocated, h.deallocated, List.countP_append, List.countP_singleton]

theorem WellDelivered.init {accepted : List Pointer} {ds : List Delivery} {d : Delivery}
    (h : WellDelivered accepted (ds ++ [d])) : WellDelivered accepted ds where
  accepted e he := h.accepted e (List.mem_append_left _ he)
  lastOnly := (List.pairwise_append.mp h.lastOnly).1

theorem WellDelivered.not_deleted {accepted : List Pointer} {ds : List Delivery} {d : Delivery}
    (h : WellDelivered accepted (ds ++ [d])) : ds.countP (Delivery.deletes d.userData) = 0 := by
  -- whatever is still to come for an operation, nothing has deleted its completion
  rw [List.countP_eq_zero]
  intro e he hdel
  have hmore := (List.pairwise_append.mp h.lastOnly).2.2 e he d (List.mem_singleton_self _)
  simp only [Delivery.deletes, Delivery.finishes, Bool.and_eq_true, decide_eq_true_eq,
    Bool.not_eq_true'] at hdel
  rw [hmore hdel.1.1] at hdel
  exact absurd hdel.1.2 (by decide)

/-- Every delivery finds its completion alive. -/
theorem run_settled {accepted : List Pointer} (hnd : accepted.Nodup) {ds : List Delivery}
    (h : WellDelivered accepted ds) :
    ∃ s, machine.run (initial accepted) ds = some s ∧ Settled accepted ds s := by
  induction ds using List.reverseRecOn with
  | nil =>
    refine ⟨initial accepted, rfl, rfl, fun p => ?_, fun p => ?_, fun p => ?_⟩
    · exact (acceptAll_counts accepted p).1
    · exact (acceptAll_counts accepted p).2.1
    · exact (acceptAll_counts accepted p).2.2
  | append_singleton ds d ih =>
    obtain ⟨s, hrun, hs⟩ := ih h.init
    have halive : s.ledger.Alive d.userData := by
      have hmem := h.accepted d (List.mem_append_right _ (List.mem_singleton_self _))
      rw [Ledger.Alive, hs.constructed, hs.destroyed, h.not_deleted,
        List.count_eq_one_of_mem hnd hmem]
    refine ⟨(invoke s d.userData d.more d.throws).1, ?_, invoke_settled hs d⟩
    rw [Machine.run_append, hrun, Option.bind_some, Machine.run_cons]
    simp [machine, complete, halive]

theorem finishes_le_one {ds : List Delivery}
    (h : ds.Pairwise fun d e => d.userData = e.userData → d.more = true) (p : Pointer) :
    ds.countP (Delivery.finishes p) ≤ 1 := by
  induction h with
  | nil => exact Nat.zero_le _
  | @cons d ds hd _ ih =>
    rw [List.countP_cons]
    by_cases hf : d.finishes p = true
    · have hnone : ds.countP (Delivery.finishes p) = 0 := by
        rw [List.countP_eq_zero]
        intro e he hfe
        simp only [Delivery.finishes, Bool.and_eq_true, decide_eq_true_eq,
          Bool.not_eq_true'] at hf hfe
        have hmore := hd e he (hf.1.trans hfe.1.symm)
        rw [hmore] at hf
        exact absurd hf.2 (by decide)
      simp only [hnone, hf, if_true, Nat.zero_add, Nat.le_refl]
    · rw [if_neg hf]
      exact ih

theorem deletes_eq_finishes {ds : List Delivery}
    (h : ∀ d ∈ ds, d.more = false → d.throws = true) (p : Pointer) :
    ds.countP (Delivery.deletes p) = ds.countP (Delivery.finishes p) := by
  apply List.countP_congr
  intro d hd
  cases hm : d.more with
  | true => simp [Delivery.deletes, Delivery.finishes, hm]
  | false => simp [Delivery.deletes, Delivery.finishes, hm, h d hd hm]

theorem throws_of_counts {ds : List Delivery} {p : Pointer}
    (hle : ds.countP (Delivery.finishes p) ≤ 1) (hdel : ds.countP (Delivery.deletes p) = 1)
    {d : Delivery} (hd : d ∈ ds) (hp : d.userData = p) (hm : d.more = false) :
    d.throws = true := by
  by_contra ht
  -- a last CQE whose callback returns would be counted in addition to the one that deletes
  have hsplit := List.countP_eq_countP_filter_add ds (Delivery.finishes p) Delivery.throws
  have hthrow : (ds.filter Delivery.throws).countP (Delivery.finishes p) =
      ds.countP (Delivery.deletes p) := by
    rw [List.countP_filter]
    rfl
  have hpos : 0 < (ds.filter fun e => !e.throws).countP (Delivery.finishes p) := by
    rw [List.countP_pos_iff]
    refine ⟨d, List.mem_filter.mpr ⟨hd, by simp [ht]⟩, ?_⟩
    simp [Delivery.finishes, hp, hm]
  omega

/-- The lifetimes are right exactly when the callback of every last CQE throws. -/
theorem lifetimes_right_iff (accepted : List Pointer) (ds : List Delivery)
    (hnd : accepted.Nodup) (h : WellDelivered accepted ds) :
    (∃ s, machine.run (initial accepted) ds = some s ∧ LifetimesRight accepted ds s) ↔
      ∀ d ∈ ds, d.more = false → d.throws = true := by
  obtain ⟨s, hrun, hs⟩ := run_settled hnd h
  constructor
  · rintro ⟨s', hrun', hl⟩ d hd hm
    obtain rfl := Option.some.inj (hrun.symm.trans hrun')
    have hpos : 0 < ds.countP (Delivery.finishes d.userData) :=
      List.countP_pos_iff.mpr ⟨d, hd, by simp [Delivery.finishes, hm]⟩
    have hdel := hl.destroyed _ (h.accepted d hd) hpos
    rw [hs.destroyed] at hdel
    exact throws_of_counts (finishes_le_one h.lastOnly _) hdel hd rfl hm
  · intro hthrows
    have heq := deletes_eq_finishes hthrows
    refine ⟨s, hrun, hs.invoked, fun p hp h0 => ⟨?_, ?_⟩, fun p _ hpos => ?_, fun p _ hpos => ?_⟩
    · rw [Ledger.Alive, hs.constructed, hs.destroyed, heq, h0, List.count_eq_one_of_mem hnd hp]
    · rw [hs.deallocated, heq, h0]
    · have hle := finishes_le_one h.lastOnly p
      rw [hs.destroyed, heq]
      omega
    · have hle := finishes_le_one h.lastOnly p
      rw [hs.deallocated, heq]
      omega

/-- Two operations: a multishot one whose callback throws once in between and at the end,
and one whose only callback throws. -/
theorem lifetimes_right_iff_throwing :
    ∃ s, machine.run (initial [100, 200])
        [⟨100, true, true⟩, ⟨200, false, true⟩, ⟨100, true, false⟩, ⟨100, false, true⟩] = some s ∧
      LifetimesRight [100, 200]
        [⟨100, true, true⟩, ⟨200, false, true⟩, ⟨100, true, false⟩, ⟨100, false, true⟩] s :=
  (lifetimes_right_iff [100, 200]
    [⟨100, true, true⟩, ⟨200, false, true⟩, ⟨100, true, false⟩, ⟨100, false, true⟩]
    (by decide) ⟨by decide, by decide⟩).mpr (by decide)

/-- An operation whose callback returns from its only CQE leaves its completion behind. -/
theorem completion_leaked : WellDelivered [100] [⟨100, false, false⟩] ∧
    ∃ s, machine.run (initial [100]) [⟨100, false, false⟩] = some s ∧
      s.ledger.destroyed 100 = 0 ∧ ¬ LifetimesRight [100] [⟨100, false, false⟩] s := by
  refine ⟨⟨by decide, by decide⟩, _, rfl, by decide, fun hl => ?_⟩
  exact absurd (hl.destroyed 100 (by decide) (by decide)) (by decide)

end BadIo.Uring.Completion
