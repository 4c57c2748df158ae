import BadIo.Semaphore.Sequential

namespace BadIo.UniqueLock

open Semaphore

/-- `m_sem`, which points to the semaphore or is null, and `m_locked`. -/
structure Lock where
  sem : Bool
  locked : Bool
  deriving DecidableEq

def Lock.ownsLock (l : Lock) : Bool := l.sem && l.locked

/-- The semaphore, the lock objects, and how many permits the locks have acquired, given
back and disowned. -/
structure State (ι F : Type*) where
  semaphore : Shared F
  locks : ι → Option Lock
  acquired : ℕ
  returned : ℕ
  disowned : ℕ

/-- The class declares a destructor and no other special member, so that `copyConstruct` and
`copyAssign` also stand for the moves; `call` is what is done to the semaphore without a lock. -/
inductive Act (ι F : Type*) where
  | construct (i : ι)
  | adoptLock (i : ι)
  | tryToLock (i : ι)
  | deferLock (i : ι)
  | copyConstruct (i j : ι)
  | copyAssign (i j : ι)
  | release (i : ι)
  | unlock (i : ι)
  | destroy (i : ι)
  | call (c : Call F)
  deriving DecidableEq

variable {ι F : Type*}

section Operations

variable [DecidableEq ι]

namespace State

def put (s : State ι F) (i : ι) (l : Option Lock) : State ι F :=
  { s with locks := Function.update s.locks i l }

def acquire (s : State ι F) (i : ι) (locked : Bool) : State ι F :=
  { s.put i (some ⟨true, locked⟩) with acquired := s.acquired + locked.toNat }

/-- `release()` of a lock leaves the permit to the caller. -/
def disown (s : State ι F) (i : ι) (l : Lock) : State ι F :=
  { s.put i (some { l with sem := false }) with disowned := s.disowned + l.ownsLock.toNat }

variable [DecidableEq F]

def unlock (order : Order F) (ndebug : Bool) (s : State ι F) (i : ι) (l : Lock) : State ι F :=
  if l.ownsLock then
    { s.put i (some { l with sem := false }) with
      semaphore := Semaphore.release order ndebug 1 s.semaphore
      returned := s.returned + 1 }
  else s

end State

variable [DecidableEq F]

def step (order : Order F) (ndebug : Bool) (s : State ι F) : Act ι F → Option (State ι F)
  | .construct i =>
    if (s.locks i).isSome then none else some (s.put i (some ⟨false, false⟩))
  | .adoptLock i =>
    -- there is a permit that was granted, or disowned, and that no lock has acquired
    if (s.locks i).isNone ∧ s.acquired < s.semaphore.grants + s.disowned then
      some (s.acquire i true)
    else none
  | .tryToLock i =>
    if (s.locks i).isSome then none
    else some ({ s with semaphore := tryAcquire s.semaphore }.acquire i (0 < s.semaphore.count))
  | .deferLock i => if (s.locks i).isSome then none else some (s.acquire i false)
  | .copyConstruct i j => match s.locks i, s.locks j with
    | none, some l => some (s.put i (some l))
    | _, _ => none
  | .copyAssign i j => match s.locks i, s.locks j with
    | some _, some l => some (s.put i (some l))
    | _, _ => none
  | .release i => (s.locks i).map (s.disown i)
  | .unlock i => (s.locks i).map (s.unlock order ndebug i)
  | .destroy i => (s.locks i).map fun l => (s.unlock order ndebug i l).put i none
  | .call c => some { s with semaphore := Semaphore.call order ndebug s.semaphore c }

def machine (ι : Type*) [DecidableEq ι] (order : Order F) (ndebug : Bool) :
    Machine (State ι F) (Act ι F) :=
  ⟨fun s a => if s.semaphore.aborted then none else step order ndebug s a⟩

end Operations

def init (desired : ℤ) : State ι F := ⟨Shared.new desired, fun _ => none, 0, 0, 0⟩

def owned : Option Lock → ℤ
  | none => 0
  | some l => l.ownsLock.toNat

/-- The locks own what they have acquired and not given away.  No more is given back than
was acquired, and all that was not disowned once no lock owns anything. -/
structure Books [Fintype ι] (s : State ι F) : Prop where
  ledger : total owned s.locks = s.acquired - s.returned - s.disowned
  atMostOnce : s.returned + s.disowned ≤ s.acquired
  exactlyOnce : (∀ i, owned (s.locks i) = 0) → s.returned + s.disowned = s.acquired

/-- No owning lock is copied, except onto another owning lock, and none is overwritten by
one that owns nothing. -/
def OwnershipKept (s : State ι F) : Act ι F → Prop
  | .copyConstruct _ j => owned (s.locks j) = 0
  | .copyAssign i j => owned (s.locks i) = owned (s.locks j)
  | _ => True

def balance [Fintype ι] (s : State ι F) : ℤ :=
  total owned s.locks + s.returned + s.disowned - s.acquired

def excess (s : State ι F) : Act ι F → ℤ
  | .copyConstruct _ j => owned (s.locks j)
  | .copyAssign i j => owned (s.locks j) - owned (s.locks i)
  | _ => 0

theorem ownershipKept_iff {s : State ι F} {a : Act ι F} : OwnershipKept s a ↔ excess s a = 0 := by
  cases a with
  | copyConstruct i j => exact Iff.rfl
  | copyAssign i j =>
    simp only [OwnershipKept, excess]
    omega
  | _ => exact ⟨fun _ => rfl, fun _ => trivial⟩

theorem owned_null (l : Lock) : owned (some { l with sem := false }) = 0 := rfl

section

variable [Fintype ι]

theorem books_iff {s : State ι F} : Books s ↔ balance s = 0 := by
  constructor
  · intro h
    have hl := h.ledger
    unfold balance
    omega
  · intro h
    unfold balance at h
    have hnonneg : 0 ≤ total owned s.locks := by
      refine total_nonneg owned s.locks fun i => ?_
      cases s.locks i with
      | none => exact le_rfl
      | some l => exact Int.natCast_nonneg _
    refine ⟨by omega, by omega, fun hnone => ?_⟩
    have hzero : total owned s.locks = 0 := Finset.sum_eq_zero fun i _ => hnone i
    omega

theorem init_books (desired : ℤ) : Books (init desired : State ι F) := by
  rw [books_iff, balance, init, total_const owned none rfl]
  rfl

end

variable [DecidableEq ι]

theorem owned_unlock [DecidableEq F] (order : Order F) (ndebug : Bool) {s : State ι F} {i : ι}
    {l : Lock} (hi : s.locks i = some l) : owned ((s.unlock order ndebug i l).locks i) = 0 := by
  unfold State.unlock
  split
  · simp [State.put, owned_null]
  · rename_i hown
    rw [hi, owned, Bool.eq_false_iff.mpr hown]
    rfl

variable [Fintype ι]

theorem balance_put (s : State ι F) (i : ι) (l : Option Lock) :
    balance (s.put i l) = balance s - owned (s.locks i) + owned l := by
  have h := total_update owned s.locks i l
  simp only [balance, State.put]
  omega

theorem balance_acquire {s : State ι F} {i : ι} (hi : s.locks i = none) (locked : Bool) :
    balance (s.acquire i locked) = balance s := by
  have h := balance_put s i (some ⟨true, locked⟩)
  have hnew : owned (some ⟨true, locked⟩) = locked.toNat := by
    rw [owned, Lock.ownsLock, Bool.true_and]
  rw [hi, hnew] at h
  simp only [balance, owned, State.acquire, State.put] at h ⊢
  push_cast
  omega

theorem balance_disown {s : State ι F} {i : ι} {l : Lock} (hi : s.locks i = some l) :
    balance (s.disown i l) = balance s := by
  have h := balance_put s i (some { l with sem := false })
  rw [hi, owned_null] at h
  simp only [balance, owned, State.disown, State.put] at h ⊢
  push_cast
  omega

variable [DecidableEq F]

theorem balance_unlock (order : Order F) (ndebug : Bool) {s : State ι F} {i : ι} {l : Lock}
    (hi : s.locks i = some l) : balance (s.unlock order ndebug i l) = balance s := by
  unfold State.unlock
  split
  · rename_i hown
    have h := balance_put s i (some { l with sem := false })
    rw [hi, owned_null, owned, hown] at h
    simp only [balance, Bool.toNat_true, State.put] at h ⊢
    push_cast
    omega
  · rfl

theorem step_balance {order : Order F} {ndebug : Bool} {s s' : State ι F} {a : Act ι F}
    (h : step order ndebug s a = some s') : balance s' = balance s + excess s a := by
  cases a with
  | construct i =>
    rw [step] at h
    split at h
    · cases h
    rename_i hi
    cases h
    rw [balance_put, Option.not_isSome_iff_eq_none.mp hi]
    change balance s - 0 + 0 = balance s + 0
    omega
  | adoptLock i =>
    rw [step] at h
    split at h
    · rename_i hi
      cases h
      rw [balance_acquire (Option.isNone_iff_eq_none.mp hi.1)]
      exact (add_zero _).symm
    · cases h
  | tryToLock i =>
    rw [step] at h
    split at h
    · cases h
    rename_i hi
    cases h
    rw [balance_acquire (by exact Option.not_isSome_iff_eq_none.mp hi)]
    exact (add_zero _).symm
  | deferLock i =>
    rw [step] at h
    split at h
    · cases h
    rename_i hi
    cases h
    rw [balance_acquire (Option.not_isSome_iff_eq_none.mp hi)]
    exact (add_zero _).symm
  | copyConstruct i j =>
    rw [step] at h
    split at h
    · rename_i l hi hj
      cases h
      rw [balance_put, hi, excess, hj, owned]
      exact congrArg (· + _) (sub_zero _)
    · cases h
  | copyAssign i j =>
    rw [step] at h
    split at h
    · rename_i l' l hi hj
      cases h
      rw [balance_put, excess, hj]
      omega
    · cases h
  | release i =>
    rw [step] at h
    obtain ⟨l, hl, rfl⟩ := Option.map_eq_some_iff.mp h
    rw [balance_disown hl]
    exact (add_zero _).symm
  | unlock i =>
    rw [step] at h
    obtain ⟨l, hl, rfl⟩ := Option.map_eq_some_iff.mp h
    rw [balance_unlock order ndebug hl]
    exact (add_zero _).symm
  | destroy i =>
    rw [step] at h
    obtain ⟨l, hl, rfl⟩ := Option.map_eq_some_iff.mp h
    rw [balance_put, owned_unlock order ndebug hl, balance_unlock order ndebug hl]
    change balance s - 0 + 0 = balance s + 0
    omega
  | call c =>
    rw [step] at h
    cases h
    exact (add_zero _).symm

/-- The books are right after every step of a run exactly if every copy keeps the number
of owning locks. -/
theorem books_iff_ownershipKept (order : Order F) (ndebug : Bool) (desired : ℤ)
    (as : List (Act ι F)) :
    (machine ι order ndebug).Along (fun _ _ s' => Books s') (init desired) as ↔
      (machine ι order ndebug).Along (fun s a _ => OwnershipKept s a) (init desired) as := by
  have hstep : ∀ (s : State ι F) (a : Act ι F) (s' : State ι F), Books s →
      (machine ι order ndebug).step s a = some s' → (Books s' ↔ OwnershipKept s a) := by
    intro s a s' hs h
    simp only [machine] at h
    split at h
    · cases h
    rw [books_iff] at hs ⊢
    rw [step_balance h, hs, ownershipKept_iff, zero_add]
  exact Machine.along_iff_along (I := Books) (A := fun _ _ _ => True)
    (fun s a s' hs _ h => hstep s a s' hs h) (fun s a s' hs _ hc h => (hstep s a s' hs h).mpr hc)
    (init_books desired) (Machine.along_true _ as)

/-- One permit, a lock on it and a copy of the lock: both give the permit back. -/
theorem copied_lock_returns_twice :
    (∃ s, (machine (Fin 2) (.fifo : Order ℕ) true).run (init 1)
        [.tryToLock 0, .copyConstruct 1 0, .destroy 0, .destroy 1] = some s ∧
      s.acquired = 1 ∧ s.returned = 2 ∧ s.semaphore.count = 2) ∧
    ¬ (machine (Fin 2) (.fifo : Order ℕ) true).Along (fun _ _ s' => Books s') (init 1)
      [.tryToLock 0, .copyConstruct 1 0, .destroy 0, .destroy 1] := by
  refine ⟨⟨_, rfl, rfl, rfl, rfl⟩, fun h => ?_⟩
  have hl := (h.nth 1 rfl rfl rfl).ledger
  exact absurd hl (by decide)

end BadIo.UniqueLock
