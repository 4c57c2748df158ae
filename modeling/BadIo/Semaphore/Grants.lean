import Mathlib.Tactic.Linarith
import BadIo.Semaphore.Basic

namespace BadIo.Semaphore

variable {F : Type*}

/-- The loops only go on with a permit to take, or a waiter to hand over. -/
def Local.InRange : Local F → Prop
  | .comparing old => 0 < old
  | .draining i old | .handing _ i old => i < -old
  | _ => True

def Local.waiting : Local F → ℤ
  | .enqueueing _ | .handing (some _) _ _ => 1
  | _ => 0

def Local.held : Local F → ℤ
  | .posting _ => 1
  | l => l.waiting

def Local.owed : Local F → ℤ
  | .draining i old | .handing (some _) i old => -old - i
  | .handing none i old => -old - i - 1
  | _ => 0

/-- Permits given out less the grants and the completions on their way. -/
def ledger (g : Shared F) (l : Local F) : ℤ :=
  g.updates - g.count - g.grants - g.functions.length - l.held

/-- Waiters present less the waiters that the counter and the releases account for. -/
def slack (g : Shared F) (l : Local F) : ℤ :=
  g.functions.length + l.waiting - l.owed - max 0 (-g.count)

theorem waiting_le_held (l : Local F) : l.waiting ≤ l.held := by
  cases l with
  | posting f => simp [Local.held, Local.waiting]
  | _ => exact le_rfl

theorem owed_nonneg {l : Local F} (h : l.InRange) : 0 ≤ l.owed := by
  cases l with
  | draining i old => simp only [Local.InRange, Local.owed] at *; omega
  | handing f i old => cases f <;> simp only [Local.InRange, Local.owed] at * <;> omega
  | _ => exact le_rfl

@[simp] theorem tryLoop_owed (old : ℤ) : (tryLoop old : Local F).owed = 0 := by
  unfold tryLoop; split <;> rfl

@[simp] theorem tryLoop_waiting (old : ℤ) : (tryLoop old : Local F).waiting = 0 := by
  unfold tryLoop; split <;> rfl

@[simp] theorem tryLoop_held (old : ℤ) : (tryLoop old : Local F).held = 0 := by
  unfold tryLoop; split <;> rfl

theorem tryLoop_inRange (old : ℤ) : (tryLoop old : Local F).InRange := by
  unfold tryLoop
  split
  · trivial
  · simp only [Local.InRange]; omega

@[simp] theorem releaseLoop_waiting (i old : ℤ) : (releaseLoop i old : Local F).waiting = 0 := by
  unfold releaseLoop; split <;> rfl

@[simp] theorem releaseLoop_held (i old : ℤ) : (releaseLoop i old : Local F).held = 0 := by
  unfold releaseLoop; split <;> rfl

theorem releaseLoop_inRange (i old : ℤ) : (releaseLoop i old : Local F).InRange := by
  unfold releaseLoop
  split
  · assumption
  · trivial

theorem releaseLoop_owed (i old : ℤ) :
    (releaseLoop i old : Local F).owed = max 0 (-old - i) := by
  unfold releaseLoop
  split
  · simp only [Local.owed]; omega
  · simp only [Local.owed]; omega

section Step

variable [DecidableEq F] {ndebug : Bool} {g g' : Shared F} {l l' : Local F} {a : Act F}

theorem trans_inRange (h : Trans ndebug g l a g' l') (hl : l.InRange) : l'.InRange := by
  cases h with
  | load | reload => exact tryLoop_inRange _
  | release | hand => exact releaseLoop_inRange _ _
  | dequeue | miss => exact hl
  | _ => trivial

/-- Every permit is accounted for. -/
theorem trans_ledger (h : Trans ndebug g l a g' l') : ledger g' l' = ledger g l := by
  cases h with
  | dequeue i old f hf =>
    have hlen := List.length_erase_add_one hf
    simp only [ledger, Shared.grants, Shared.granted, Local.held, Local.waiting]
    omega
  | hand f i old =>
    rw [ledger, ledger, releaseLoop_held]
    cases f <;> simp [Shared.grants, Shared.granted, Local.held, Local.waiting]
    omega
  | load | reload =>
    rw [ledger, ledger, tryLoop_held]
    rfl
  | release =>
    rw [ledger, ledger, releaseLoop_held]
    simp only [Local.held, Local.waiting, Shared.grants, Shared.granted]
    omega
  | miss => rfl
  | _ =>
    simp [ledger, Shared.grants, Shared.granted, Local.held, Local.waiting]
    try omega

/-- No step announces a waiter, or owes it a dequeue, that is not there. -/
theorem trans_slack (h : Trans ndebug g l a g' l') (hl : l.InRange)
    (hu : ∀ u, a = .release u → 0 ≤ u) : slack g l ≤ slack g' l' := by
  cases h with
  | load | reload =>
    rw [slack, slack, tryLoop_waiting, tryLoop_owed]
    rfl
  | release u h =>
    rw [slack, slack, releaseLoop_waiting, releaseLoop_owed]
    simp only [Local.waiting, Local.owed]
    omega
  | raise u h =>
    -- a lower counter would announce waiters that nobody has brought
    have h0 := hu u rfl
    simp only [slack, Local.waiting, Local.owed]
    omega
  | dequeue i old f hf =>
    have hlen := List.length_erase_add_one hf
    simp only [slack, Local.waiting, Local.owed]
    omega
  | hand f i old =>
    have hl' : i < -old := hl
    rw [slack, slack, releaseLoop_waiting, releaseLoop_owed]
    cases f <;> simp only [Local.waiting, Local.owed] <;> omega
  | exchange =>
    have hl' : 0 < g.count := hl
    simp only [slack, Local.waiting, Local.owed]
    omega
  | abort i old =>
    have hl' : i < -old := hl
    simp only [slack, Local.waiting, Local.owed]
    omega
  | enqueue f =>
    simp only [slack, Local.waiting, Local.owed, List.length_append, List.length_singleton]
    omega
  | _ =>
    simp only [slack, Local.waiting, Local.owed]
    omega

end Step

variable {ι : Type*} [Fintype ι]

structure Balanced (desired : ℤ) (s : Config ι (Shared F) (Local F)) : Prop where
  inRange : ∀ i, (s.threads i).InRange
  ledger : desired + s.shared.updates - s.shared.count =
    s.shared.grants + s.shared.functions.length + total Local.held s.threads
  slack : max 0 (-s.shared.count) + total Local.owed s.threads ≤
    s.shared.functions.length + total Local.waiting s.threads

theorem initial_total (m : Local F → ℤ) (h : m .idle = 0) (desired : ℤ) :
    total m (initial desired : Config ι (Shared F) (Local F)).threads = 0 :=
  total_const m .idle h

theorem initial_balanced {desired : ℤ} (hd : 0 ≤ desired) :
    Balanced desired (initial desired : Config ι (Shared F) (Local F)) where
  inRange _ := trivial
  ledger := by
    rw [initial_total _ rfl]
    simp [initial, Shared.new, Shared.grants, Shared.granted]
  slack := by
    rw [initial_total _ rfl, initial_total _ rfl]
    simp [initial, Shared.new, hd]

/-- A balanced semaphore has not granted more than it was given. -/
theorem Balanced.grants_le {desired : ℤ} {s : Config ι (Shared F) (Local F)}
    (hs : Balanced desired s) : (s.shared.grants : ℤ) ≤ desired + s.shared.updates := by
  have hheld : total Local.waiting s.threads ≤ total Local.held s.threads :=
    Finset.sum_le_sum fun i _ => waiting_le_held (s.threads i)
  have howed := total_nonneg Local.owed s.threads fun i => owed_nonneg (hs.inRange i)
  -- what the ledger does not grant covers at least the waiters that the slack demands
  have hl := hs.ledger
  have hw := hs.slack
  omega

variable [DecidableEq ι] [DecidableEq F]

theorem step_balanced {ndebug : Bool} {desired : ℤ} {s s' : Config ι (Shared F) (Local F)}
    {a : ι × Act F} (hs : Balanced desired s) (hu : ∀ u, a.2 = .release u → 0 ≤ u)
    (h : (machine ι F ndebug).step s a = some s') : Balanced desired s' := by
  obtain ⟨g, l, hstep, rfl⟩ := interleave_step.mp h
  have ht := step_trans hstep
  have hl := hs.inRange a.1
  refine ⟨forall_update hs.inRange (trans_inRange ht hl), ?_, ?_⟩
  · have hb := trans_ledger ht
    have hh := total_update Local.held s.threads a.1 l
    have hd := hs.ledger
    simp only [Semaphore.ledger] at hb ⊢
    omega
  · have hb := trans_slack ht hl hu
    have ho := total_update Local.owed s.threads a.1 l
    have hw := total_update Local.waiting s.threads a.1 l
    have hd := hs.slack
    simp only [Semaphore.slack] at hb ⊢
    omega

/-- Whatever the threads call and however their atomic actions interleave, the grants
never exceed the initial permits and the released ones. -/
theorem grants_le_released (ndebug : Bool) {desired : ℤ} (hd : 0 ≤ desired)
    {acts : List (ι × Act F)} (hu : ∀ i u, (i, .release u) ∈ acts → 0 ≤ u)
    {s : Config ι (Shared F) (Local F)}
    (h : (machine ι F ndebug).run (initial desired) acts = some s) :
    (s.shared.grants : ℤ) ≤ desired + s.shared.updates := by
  have hb : Balanced desired s := Machine.invariant_of_along
    (C := fun _ (a : ι × Act F) _ => ∀ u, a.2 = .release u → 0 ≤ u)
    (fun s a s' hs hc hstep => step_balanced hs hc hstep) (initial_balanced hd)
    (Machine.along_of_forall fun a ha u hau => hu a.1 u (hau ▸ ha)) h
  exact hb.grants_le

def handOver : List (Bool × Act ℕ) :=
  [(true, .asyncAcquire 7), (true, .enqueue), (false, .release 2),
    (false, .tryDequeue (some 7)), (false, .post)]

theorem grants_le_released_handOver : ∃ s,
    (machine Bool ℕ true).run (initial 0) handOver = some s ∧ s.shared.grants = 1 ∧
      (s.shared.grants : ℤ) ≤ 0 + s.shared.updates := by
  have hu : ∀ i u, (i, .release u) ∈ handOver → 0 ≤ u := by
    intro i u hm
    simp only [handOver, List.mem_cons, Prod.mk.injEq, Act.release.injEq] at hm
    simp at hm
    omega
  exact ⟨_, rfl, rfl, grants_le_released true le_rfl hu rfl⟩

end BadIo.Semaphore
