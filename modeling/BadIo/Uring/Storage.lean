import Mathlib.Data.Int.Order.Basic
import BadIo.Holders
import BadIo.Machine

namespace BadIo.Uring.Storage

/-- `io_uring`; `ring` says which `io_uring_queue_init_params` has filled it. -/
structure IoUring where
  ringFd : ℤ
  ring : ℕ
  deriving DecidableEq

def invalidHandle : ℤ := -1

def defaultUring : IoUring := ⟨invalidHandle, 0⟩

def IoUring.owned (u : IoUring) : Option ℕ :=
  if u.ringFd ≠ invalidHandle then some u.ring else none

/-- The storage objects, the number of rings initialised so far, and how often
`io_uring_queue_exit` was called on each. -/
structure State (ι : Type*) where
  alive : ι → Bool
  uring : ι → IoUring
  next : ℕ
  exits : ℕ → ℕ

/-- `adopt` is the second half of `create`, after the default construction. -/
inductive Act (ι : Type*) where
  | construct (i : ι)
  | adopt (i : ι) (fd : ℤ)
  | moveConstruct (i j : ι)
  | moveAssign (i j : ι)
  | destroy (i : ι)
  deriving DecidableEq

variable {ι : Type*}

namespace State

def owned (s : State ι) (i : ι) : Option ℕ := (s.uring i).owned

def queueExit (s : State ι) (u : IoUring) : State ι :=
  { s with exits := Function.update s.exits u.ring (s.exits u.ring + 1) }

variable [DecidableEq ι]

/-- `m_uring = std::exchange(other.m_uring, default_uring())` -/
def exchange (s : State ι) (i j : ι) : State ι :=
  { s with uring := Function.update (Function.update s.uring j defaultUring) i (s.uring j) }

def moveAssign (s : State ι) (i j : ι) : State ι :=
  if i ≠ j ∧ (s.uring i).ringFd ≠ invalidHandle then (s.queueExit (s.uring i)).exchange i j else s

def destroy (s : State ι) (i : ι) : State ι :=
  if (s.uring i).ringFd ≠ invalidHandle then
    { s.queueExit (s.uring i) with
      uring := Function.update s.uring i defaultUring
      alive := Function.update s.alive i false }
  else { s with alive := Function.update s.alive i false }

end State

section

variable [DecidableEq ι]

def step (s : State ι) : Act ι → Option (State ι)
  | .construct i =>
    if s.alive i = true then none
    else some { s with
      alive := Function.update s.alive i true
      uring := Function.update s.uring i defaultUring }
  | .adopt i fd =>
    if s.alive i = true ∧ (s.uring i).ringFd = invalidHandle ∧ 0 ≤ fd then
      some { s with uring := Function.update s.uring i ⟨fd, s.next⟩, next := s.next + 1 }
    else none
  | .moveConstruct i j =>
    if s.alive i = false ∧ s.alive j = true then
      some { s.exchange i j with alive := Function.update s.alive i true }
    else none
  | .moveAssign i j =>
    if s.alive i = true ∧ s.alive j = true then some (s.moveAssign i j) else none
  | .destroy i => if s.alive i = true then some (s.destroy i) else none

def machine (ι : Type*) [DecidableEq ι] : Machine (State ι) (Act ι) := ⟨step⟩

end

def init : State ι := ⟨fun _ => false, fun _ => defaultUring, 0, fun _ => 0⟩

/-- A ring has one owner until it is exited, and is exited once. -/
def Linear (s : State ι) : Prop :=
  ∀ r < s.next, s.exits r = 0 ∧ (∃! i, s.alive i = true ∧ s.owned i = some r) ∨
    s.exits r = 1 ∧ ∀ i, s.alive i = true → s.owned i ≠ some r

structure Moved (s s' : State ι) (i j : ι) : Prop where
  target : s'.owned i = s.owned j
  source : s'.owned j = none
  exited : ∀ r, s.owned i = some r → s'.exits r = 1

structure Right (s : State ι) (a : Act ι) (s' : State ι) : Prop where
  linear : Linear s'
  moved : ∀ i j, a = .moveAssign i j → i ≠ j → Moved s s' i j

/-- No ring is assigned to an object that has none. -/
def NotToEmpty (s : State ι) (a : Act ι) : Prop :=
  ∀ i j, a = .moveAssign i j → i ≠ j → s.owned i = none → s.owned j = none

structure Inv (s : State ι) : Prop where
  exclusive : Exclusive s.owned
  alive : ∀ i r, s.owned i = some r → s.alive i = true
  held : ∀ r, Held s.owned r → r < s.next ∧ s.exits r = 0
  exited : ∀ r < s.next, ¬ Held s.owned r → s.exits r = 1
  unused : ∀ r, s.next ≤ r → s.exits r = 0

variable {s s' : State ι} {i j : ι} {a : Act ι}

theorem owned_eq_none : s.owned i = none ↔ (s.uring i).ringFd = invalidHandle := by
  unfold State.owned IoUring.owned
  split
  · rename_i h
    simpa using h
  · rename_i h
    simpa using h

theorem Inv.linear (h : Inv s) : Linear s := by
  intro r hr
  by_cases hheld : Held s.owned r
  · obtain ⟨i, hi⟩ := hheld
    refine .inl ⟨(h.held r ⟨i, hi⟩).2, i, ⟨h.alive i r hi, hi⟩, ?_⟩
    exact fun k hk => h.exclusive hk.2 hi
  · exact .inr ⟨h.exited r hr hheld, fun i _ hi => hheld ⟨i, hi⟩⟩

theorem init_inv : Inv (init : State ι) :=
  ⟨nofun, nofun, nofun, nofun, fun _ _ => rfl⟩

theorem exists_owned (hi : (s.uring i).ringFd ≠ invalidHandle) :
    s.owned i = some (s.uring i).ring := by
  rw [State.owned, IoUring.owned, if_pos hi]

theorem Inv.owned_of_dead (h : Inv s) (hi : s.alive i = false) : s.owned i = none := by
  by_contra hn
  obtain ⟨r, hr⟩ := Option.ne_none_iff_exists'.mp hn
  exact nomatch hi.symm.trans (h.alive i r hr)

theorem Inv.of_owned (h : Inv s) (howned : s'.owned = s.owned)
    (halive : ∀ k, s.alive k = true → s.owned k ≠ none → s'.alive k = true)
    (hnext : s'.next = s.next) (hexits : s'.exits = s.exits) : Inv s' := by
  refine ⟨howned ▸ h.exclusive, ?_, ?_, ?_, ?_⟩
  · intro k r hk
    rw [howned] at hk
    exact halive k (h.alive k r hk) (by rw [hk]; nofun)
  · rw [howned, hnext, hexits]
    exact h.held
  · rw [howned, hnext, hexits]
    exact h.exited
  · rw [hnext, hexits]
    exact h.unused

theorem Inv.exitedRing (h : Inv s) {r : ℕ} (hr : Held s.owned r) (hx : Exclusive s'.owned)
    (halive : ∀ k r, s'.owned k = some r → s'.alive k = true)
    (hheld : ∀ r', Held s'.owned r' ↔ r' ≠ r ∧ Held s.owned r')
    (hnext : s'.next = s.next) (hexits : s'.exits = Function.update s.exits r (s.exits r + 1)) :
    Inv s' := by
  have hr' := h.held r hr
  refine ⟨hx, halive, ?_, ?_, ?_⟩
  · intro r' hh
    obtain ⟨hne, hh'⟩ := (hheld r').mp hh
    rw [hnext, hexits, Function.update_of_ne hne]
    exact h.held r' hh'
  · intro r' hlt hn
    rw [hnext] at hlt
    rw [hexits]
    by_cases hne : r' = r
    · rw [hne, Function.update_self, hr'.2]
    · rw [Function.update_of_ne hne]
      exact h.exited r' hlt fun hh => hn ((hheld r').mpr ⟨hne, hh⟩)
  · intro r' hle
    rw [hnext] at hle
    have hne : r' ≠ r := by
      rintro rfl
      exact absurd hr'.1 (Nat.not_lt.mpr hle)
    rw [hexits, Function.update_of_ne hne]
    exact h.unused r' hle

variable [DecidableEq ι]

theorem owned_update (u : IoUring) :
    (fun k => (Function.update s.uring i u k).owned) = Function.update s.owned i u.owned := by
  funext k
  by_cases hk : k = i
  · subst hk; simp
  · simp [hk, State.owned]

theorem owned_exchange : (s.exchange i j).owned = transfer s.owned i j := by
  funext k
  unfold State.owned State.exchange transfer
  by_cases hk : k = i
  · subst hk; simp
  · by_cases hkj : k = j
    · subst hkj
      simp [hk, IoUring.owned, defaultUring]
    · simp [hk, hkj]

theorem Inv.constructed (h : Inv s) (hi : s.alive i = false) :
    Inv { s with
      alive := Function.update s.alive i true
      uring := Function.update s.uring i defaultUring } := by
  refine h.of_owned ?_ ?_ rfl rfl
  · exact (owned_update defaultUring).trans (drop_of_none (h.owned_of_dead hi))
  · intro k hk _
    by_cases hki : k = i
    · simp [hki]
    · simpa [hki] using hk

theorem Inv.adopted (h : Inv s) {fd : ℤ} (hi : s.alive i = true)
    (hring : (s.uring i).ringFd = invalidHandle) (hfd : 0 ≤ fd) :
    Inv { s with uring := Function.update s.uring i ⟨fd, s.next⟩, next := s.next + 1 } := by
  have hnone := owned_eq_none.mpr hring
  have hnext : ¬ Held s.owned s.next := fun hn => absurd (h.held _ hn).1 (Nat.lt_irrefl _)
  have howned : (IoUring.mk fd s.next).owned = some s.next := by
    unfold IoUring.owned invalidHandle
    exact if_pos (by simp only; omega)
  have hgive : State.owned { s with
      uring := Function.update s.uring i ⟨fd, s.next⟩, next := s.next + 1 } =
      give s.owned i s.next := by
    rw [give, ← howned]
    exact owned_update _
  refine ⟨hgive ▸ h.exclusive.give hnext, ?_, ?_, ?_,
    fun r hr => h.unused r (Nat.le_of_succ_le hr)⟩
  · intro k r hk
    rw [hgive] at hk
    rcases give_eq_some.mp hk with ⟨rfl, -⟩ | ⟨-, hk'⟩
    · exact hi
    · exact h.alive k r hk'
  · intro r hr
    rw [hgive, held_give hnone] at hr
    rcases hr with rfl | hr'
    · exact ⟨Nat.lt_succ_self _, h.unused _ (Nat.le_refl _)⟩
    · exact ⟨Nat.lt_succ_of_lt (h.held r hr').1, (h.held r hr').2⟩
  · intro r hr hn
    rw [hgive, held_give hnone, not_or] at hn
    exact h.exited r (Nat.lt_of_le_of_ne (Nat.le_of_lt_succ hr) hn.1) hn.2

theorem Inv.moved (h : Inv s) (hi : s.alive i = false) (hj : s.alive j = true) :
    Inv { s.exchange i j with alive := Function.update s.alive i true } := by
  have hnone := h.owned_of_dead hi
  have hij : i ≠ j := by
    rintro rfl
    exact nomatch hi.symm.trans hj
  have howned : State.owned { s.exchange i j with alive := Function.update s.alive i true } =
      transfer s.owned i j := owned_exchange
  refine ⟨howned ▸ h.exclusive.transfer hij, ?_, ?_, ?_, h.unused⟩
  · intro k r hk
    rw [howned] at hk
    by_cases hki : k = i
    · simp [hki]
    · rcases (transfer_eq_some hij).mp hk with ⟨hk', -⟩ | ⟨-, -, hk'⟩
      · exact absurd hk' hki
      · simpa [hki] using h.alive k r hk'
  · intro r hr
    rw [howned, held_transfer_of_none hij hnone] at hr
    exact h.held r hr
  · intro r hr hn
    rw [howned, held_transfer_of_none hij hnone] at hn
    exact h.exited r hr hn

theorem Inv.assigned (h : Inv s) (hi : s.alive i = true) (hij : i ≠ j)
    (hring : (s.uring i).ringFd ≠ invalidHandle) :
    Inv ((s.queueExit (s.uring i)).exchange i j) := by
  have hsome := exists_owned hring
  have howned : ((s.queueExit (s.uring i)).exchange i j).owned = transfer s.owned i j :=
    owned_exchange
  refine h.exitedRing ⟨i, hsome⟩ (howned ▸ h.exclusive.transfer hij) ?_ ?_ rfl rfl
  · intro k r hk
    rw [howned] at hk
    rcases (transfer_eq_some hij).mp hk with ⟨rfl, -⟩ | ⟨-, -, hk'⟩
    · exact hi
    · exact h.alive k r hk'
  · intro r
    rw [howned]
    exact held_transfer_of_some h.exclusive hij hsome

theorem Inv.destroyed (h : Inv s) : Inv (s.destroy i) := by
  unfold State.destroy
  split
  · rename_i hring
    have hsome := exists_owned hring
    have howned : State.owned { s.queueExit (s.uring i) with
        uring := Function.update s.uring i defaultUring
        alive := Function.update s.alive i false } = drop s.owned i := owned_update _
    refine h.exitedRing ⟨i, hsome⟩ (howned ▸ h.exclusive.drop i) ?_ ?_ rfl rfl
    · intro k r hk
      rw [howned] at hk
      obtain ⟨hki, hk'⟩ := drop_eq_some.mp hk
      simpa [hki] using h.alive k r hk'
    · intro r
      rw [howned]
      exact held_drop h.exclusive hsome
  · rename_i hring
    have hnone := owned_eq_none.mpr (not_not.mp hring)
    refine h.of_owned rfl (fun k hk hown => ?_) rfl rfl
    have hki : k ≠ i := by
      rintro rfl
      exact hown hnone
    simpa [hki] using hk

theorem step_inv (h : Inv s) (hs : (machine ι).step s a = some s') : Inv s' := by
  change step s a = some s' at hs
  cases a with
  | construct i =>
    rw [step] at hs
    split at hs
    · cases hs
    · rename_i hi
      cases hs
      exact h.constructed (Bool.not_eq_true _ ▸ hi)
  | adopt i fd =>
    rw [step] at hs
    split at hs
    · rename_i hi
      cases hs
      exact h.adopted hi.1 hi.2.1 hi.2.2
    · cases hs
  | moveConstruct i j =>
    rw [step] at hs
    split at hs
    · rename_i hi
      cases hs
      exact h.moved hi.1 hi.2
    · cases hs
  | moveAssign i j =>
    rw [step] at hs
    split at hs
    · rename_i hi
      cases hs
      unfold State.moveAssign
      split
      · rename_i hring
        exact h.assigned hi.1 hring.1 hring.2
      · exact h
    · cases hs
  | destroy i =>
    rw [step] at hs
    split at hs
    · cases hs
      exact h.destroyed
    · cases hs

theorem moved_iff (h : Inv s) (hij : i ≠ j) :
    Moved s (s.moveAssign i j) i j ↔ (s.owned i = none → s.owned j = none) := by
  unfold State.moveAssign
  split
  · rename_i hring
    have hsome := exists_owned hring.2
    have howned : ((s.queueExit (s.uring i)).exchange i j).owned = transfer s.owned i j :=
      owned_exchange
    refine ⟨fun _ hn => (nomatch hsome.symm.trans hn), fun _ => ⟨?_, ?_, fun r hr => ?_⟩⟩
    · rw [howned, transfer_self]
    · rw [howned, transfer_source _ hij]
    · cases hsome.symm.trans hr
      have hexits := (h.held _ ⟨i, hr⟩).2
      simp [State.exchange, State.queueExit, hexits]
  · rename_i hring
    have hnone : s.owned i = none := by
      rw [owned_eq_none]
      by_contra hne
      exact hring ⟨hij, hne⟩
    constructor
    · exact fun hm _ => hm.source
    · intro hj
      exact ⟨hnone.trans (hj hnone).symm, hj hnone, fun r hr => (nomatch hnone.symm.trans hr)⟩

theorem step_right_iff (h : Inv s) (hs : (machine ι).step s a = some s') :
    Right s a s' ↔ NotToEmpty s a := by
  have hlinear := (step_inv h hs).linear
  constructor
  · rintro hr i j rfl hij
    have hm := hr.moved i j rfl hij
    change step s (.moveAssign i j) = some s' at hs
    rw [step] at hs
    split at hs
    · cases hs
      exact (moved_iff h hij).mp hm
    · cases hs
  · intro hc
    refine ⟨hlinear, ?_⟩
    rintro i j rfl hij
    change step s (.moveAssign i j) = some s' at hs
    rw [step] at hs
    split at hs
    · cases hs
      exact (moved_iff h hij).mpr (hc i j rfl hij)
    · cases hs

/-- Ownership is right throughout a run exactly if no ring is ever assigned to an object
that has none. -/
theorem right_iff_notToEmpty (as : List (Act ι)) :
    (machine ι).Along Right init as ↔ (machine ι).Along (fun s a _ => NotToEmpty s a) init as :=
  Machine.along_iff_along (I := Inv) (A := fun _ _ _ => True)
    (fun _ _ _ h _ hs => step_right_iff h hs) (fun _ _ _ h _ _ hs => step_inv h hs) init_inv
    (Machine.along_true _ as)

/-- A default-constructed object is assigned the ring of another, which keeps it. -/
theorem ring_stays :
    (∃ s, (machine ℕ).run init [.construct 0, .adopt 0 3, .construct 1, .moveAssign 1 0] = some s ∧
      s.owned 1 = none ∧ s.owned 0 = some 0) ∧
    ¬ (machine ℕ).Along Right init
      [.construct 0, .adopt 0 3, .construct 1, .moveAssign 1 0] := by
  refine ⟨⟨_, rfl, rfl, rfl⟩, fun h => ?_⟩
  have hm := (h.nth 3 rfl rfl rfl).moved 1 0 rfl (by decide)
  exact nomatch hm.target

end BadIo.Uring.Storage
