import BadIo.Holders
import BadIo.Semaphore.Grants
import BadIo.UniqueLock

namespace BadIo.UniqueLock.Exclusion

open Semaphore (Shared Local Balanced Trans)

/-- A lock that is being constructed, or that is giving its permit back, is `busy`. -/
inductive Entry where
  | absent
  | busy
  | object (l : Lock)
  deriving DecidableEq

inductive Member (κ : Type*) where
  | tryToLock (n : κ)
  | unlock (n : κ)
  | destroy (n : κ)
  deriving DecidableEq

variable {ι κ F : Type*}

def Member.name : Member κ → κ
  | .tryToLock n => n
  | .unlock n => n
  | .destroy n => n

def Member.left (success : Bool) : Member κ → Entry
  | .tryToLock _ => .object ⟨true, success⟩
  | .unlock _ => .object ⟨false, true⟩
  | .destroy _ => .absent

def Member.claims (success : Bool) : Member κ → Bool
  | .tryToLock _ => success
  | _ => false

/-- The semaphore with its threads, the locks, and how many permits the locks have adopted,
claimed by `try_acquire` and disowned, how many owning locks copies have made beyond those
they have overwritten, and what was released without a lock. -/
structure State (ι κ F : Type*) where
  config : Config ι (Shared F) (Local F)
  members : ι → Option (Member κ)
  locks : κ → Entry
  adopted : ℕ
  claimed : ℕ
  disowned : ℕ
  copied : ℤ
  outside : ℤ

/-- A thread goes on inside the semaphore, or calls it without a lock, with `semaphore`;
`copyConstruct` and `copyAssign` also stand for the moves. -/
inductive Event (ι κ F : Type*) where
  | semaphore (i : ι) (a : Semaphore.Act F)
  | construct (n : κ)
  | adoptLock (n : κ)
  | tryToLock (i : ι) (n : κ)
  | deferLock (n : κ)
  | copyConstruct (n m : κ)
  | copyAssign (n m : κ)
  | release (n : κ)
  | unlock (i : ι) (n : κ)
  | destroy (i : ι) (n : κ)
  deriving DecidableEq

def owned : Entry → ℤ
  | .object l => l.ownsLock.toNat
  | _ => 0

def released : Semaphore.Act F → ℤ
  | .release update => update
  | _ => 0

section Operations

variable [DecidableEq ι] [DecidableEq κ]

namespace State

def put (s : State ι κ F) (n : κ) (e : Entry) : State ι κ F :=
  { s with locks := Function.update s.locks n e }

def enter (s : State ι κ F) (i : ι) (m : Member κ) : State ι κ F :=
  { s with
    members := give s.members i m
    locks := Function.update s.locks m.name .busy }

/-- The member function goes on when the call of the semaphore has returned. -/
def finish (s : State ι κ F) (i : ι) (success : Bool) : State ι κ F :=
  match s.config.threads i, s.members i with
  | .idle, some m =>
    { s with
      members := drop s.members i
      locks := Function.update s.locks m.name (m.left success)
      claimed := s.claimed + (m.claims success).toNat }
  | _, _ => s

variable [DecidableEq F]

def atomic (ndebug : Bool) (s : State ι κ F) (i : ι) (a : Semaphore.Act F) :
    Option (State ι κ F) :=
  ((Semaphore.machine ι F ndebug).step s.config (i, a)).map fun config =>
    { s with config }.finish i (s.config.shared.acquired < config.shared.acquired)

def call (ndebug : Bool) (s : State ι κ F) (i : ι) (m : Member κ) (a : Semaphore.Act F) :
    Option (State ι κ F) :=
  if (s.members i).isNone then (s.enter i m).atomic ndebug i a else none

end State

variable [DecidableEq F]

def step (ndebug : Bool) (s : State ι κ F) : Event ι κ F → Option (State ι κ F)
  | .semaphore i a => { s with outside := s.outside + released a }.atomic ndebug i a
  | .construct n => if s.locks n = .absent then some (s.put n (.object ⟨false, false⟩)) else none
  | .adoptLock n =>
    if s.locks n ≠ .absent then none
    -- a permit that a completion or `try_acquire` was granted, or else one that was disowned
    else if s.adopted + s.claimed < s.config.shared.grants then
      some { s.put n (.object ⟨true, true⟩) with adopted := s.adopted + 1 }
    else if 0 < s.disowned then
      some { s.put n (.object ⟨true, true⟩) with disowned := s.disowned - 1 }
    else none
  | .tryToLock i n =>
    if s.locks n = .absent then s.call ndebug i (.tryToLock n) .tryAcquire else none
  | .deferLock n => if s.locks n = .absent then some (s.put n (.object ⟨true, false⟩)) else none
  | .copyConstruct n m => match s.locks n, s.locks m with
    | .absent, .object l =>
      some { s.put n (.object l) with copied := s.copied + owned (.object l) }
    | _, _ => none
  | .copyAssign n m => match s.locks n, s.locks m with
    | .object l', .object l => some { s.put n (.object l) with
        copied := s.copied + owned (.object l) - owned (.object l') }
    | _, _ => none
  | .release n => match s.locks n with
    | .object l => some { s.put n (.object { l with sem := false }) with
        disowned := s.disowned + l.ownsLock.toNat }
    | _ => none
  | .unlock i n => match s.locks n with
    | .object l => if l.ownsLock then s.call ndebug i (.unlock n) (.release 1) else some s
    | _ => none
  | .destroy i n => match s.locks n with
    | .object l =>
      if l.ownsLock then s.call ndebug i (.destroy n) (.release 1) else some (s.put n .absent)
    | _ => none

def machine (ι κ F : Type*) [DecidableEq ι] [DecidableEq κ] [DecidableEq F] (ndebug : Bool) :
    Machine (State ι κ F) (Event ι κ F) :=
  ⟨fun s e => if s.config.shared.aborted then none else step ndebug s e⟩

end Operations

def initial (desired : ℤ) : State ι κ F :=
  ⟨Semaphore.initial desired, fun _ => none, fun _ => .absent, 0, 0, 0, 0, 0⟩

section Grants

variable [DecidableEq F] {ndebug : Bool} {g g' : Shared F} {l l' : Local F}
  {a : Semaphore.Act F}

theorem trans_granted (h : Trans ndebug g l a g' l') :
    g.granted.length ≤ g'.granted.length := by
  cases h with
  | post | hand =>
    simp only [Shared.granted, List.filterMap_append, List.length_append]
    omega
  | _ => exact le_rfl

theorem trans_acquired (h : Trans ndebug g l a g' l') : g.acquired ≤ g'.acquired := by
  cases h with
  | exchange => exact Nat.le_succ _
  | _ => exact le_rfl

theorem trans_updates (h : Trans ndebug g l a g' l') : g'.updates = g.updates + released a := by
  cases h with
  | release | raise => rfl
  | _ => exact (add_zero _).symm

end Grants

structure Inv [Fintype ι] (desired : ℤ) (s : State ι κ F) : Prop where
  balanced : Balanced desired s.config
  busy : ∀ i m, s.members i = some m → s.locks m.name = .busy
  exclusive : Exclusive fun i => (s.members i).map Member.name
  taken : s.adopted + s.claimed ≤ s.config.shared.grants

def balance [Fintype κ] (s : State ι κ F) : ℤ :=
  total owned s.locks + s.config.shared.updates + s.disowned -
    s.adopted - s.claimed - s.copied - s.outside

theorem initial_inv [Fintype ι] {desired : ℤ} (hd : 0 ≤ desired) :
    Inv desired (initial desired : State ι κ F) where
  balanced := Semaphore.initial_balanced hd
  busy := nofun
  exclusive := exclusive_none
  taken := Nat.zero_le _

theorem initial_balance [Fintype κ] (desired : ℤ) :
    balance (initial desired : State ι κ F) = 0 := by
  rw [balance, initial, total_const owned .absent rfl]
  rfl

theorem owned_nonneg (e : Entry) : 0 ≤ owned e := by
  cases e with
  | object l => exact Int.natCast_nonneg _
  | _ => exact le_rfl

theorem owned_busy : owned .busy = 0 := rfl

theorem owned_left (success : Bool) (m : Member κ) :
    owned (m.left success) = (m.claims success).toNat := by
  cases m with
  | tryToLock n => rw [Member.left, owned, Lock.ownsLock, Bool.true_and]; rfl
  | _ => rfl

variable [DecidableEq κ] {s s' : State ι κ F} {i : ι} {m : Member κ}

section Balance

variable [Fintype κ]

theorem balance_put (s : State ι κ F) (n : κ) (e : Entry) :
    balance (s.put n e) = balance s - owned (s.locks n) + owned e := by
  have h := total_update owned s.locks n e
  simp only [balance, State.put]
  omega

variable [DecidableEq ι]

theorem balance_enter (s : State ι κ F) (i : ι) (m : Member κ) :
    balance (s.enter i m) = balance s - owned (s.locks m.name) := by
  have h := balance_put s m.name .busy
  rw [owned_busy, add_zero] at h
  exact h

theorem balance_finish (hbusy : ∀ i m, s.members i = some m → s.locks m.name = .busy)
    (success : Bool) : balance (s.finish i success) = balance s := by
  unfold State.finish
  split
  · rename_i m _ hm
    have h := balance_put s m.name (m.left success)
    rw [hbusy i m hm, owned_busy, owned_left] at h
    simp only [balance, State.put] at h ⊢
    push_cast
    omega
  · rfl

end Balance

variable [Fintype ι] {desired : ℤ}

theorem put_inv (h : Inv desired s) {n : κ} (hn : s.locks n ≠ .busy) (e : Entry) :
    Inv desired (s.put n e) where
  balanced := h.balanced
  busy j m' hj := by
    have hbusy := h.busy j m' hj
    have hname : m'.name ≠ n := fun heq => hn (heq ▸ hbusy)
    exact (Function.update_of_ne hname _ _).trans hbusy
  exclusive := h.exclusive
  taken := h.taken

theorem put_step [Fintype κ] (h : Inv desired s) (hb : balance s = 0) {n : κ} {e e' : Entry}
    (hn : s.locks n = e) (he : e ≠ .busy) {adopted disowned : ℕ} {copied : ℤ}
    (htaken : adopted + s.claimed ≤ s.config.shared.grants)
    (hbooks : owned e' + disowned - adopted - copied =
      owned e + s.disowned - s.adopted - s.copied) :
    Inv desired { s.put n e' with adopted, disowned, copied } ∧
      balance { s.put n e' with adopted, disowned, copied } = 0 := by
  have hput := put_inv h (by rw [hn]; exact he) e'
  refine ⟨⟨hput.balanced, hput.busy, hput.exclusive, htaken⟩, ?_⟩
  have hbal := balance_put s n e'
  rw [hn, hb] at hbal
  simp only [balance, State.put] at hbal ⊢
  omega

variable [DecidableEq ι]

theorem enter_inv (h : Inv desired s) (hn : s.locks m.name ≠ .busy) :
    Inv desired (s.enter i m) where
  balanced := h.balanced
  busy j m' hj := by
    change Function.update s.locks m.name .busy m'.name = .busy
    by_cases hname : m'.name = m.name
    · rw [hname, Function.update_self]
    · rw [Function.update_of_ne hname]
      rcases give_eq_some.mp hj with ⟨-, rfl⟩ | ⟨-, hj⟩
      · exact absurd rfl hname
      · exact h.busy j m' hj
  exclusive := by
    have hgive : (fun j => ((s.enter i m).members j).map Member.name) =
        give (fun j => (s.members j).map Member.name) i m.name := by
      funext j
      simp only [State.enter, give, Function.update_apply]
      split
      · rfl
      · rfl
    rw [hgive]
    apply h.exclusive.give
    rintro ⟨j, hj⟩
    obtain ⟨m', hm', hname⟩ := Option.map_eq_some_iff.mp hj
    exact hn (hname ▸ h.busy j m' hm')
  taken := h.taken

theorem finish_inv (h : Inv desired s) {success : Bool}
    (htaken : s.adopted + s.claimed + success.toNat ≤ s.config.shared.grants) :
    Inv desired (s.finish i success) := by
  unfold State.finish
  split
  · rename_i m _ hm
    refine ⟨h.balanced, ?_, ?_, ?_⟩
    · intro j m' hj
      obtain ⟨hji, hj⟩ := drop_eq_some.mp hj
      change Function.update s.locks m.name (m.left success) m'.name = .busy
      rw [Function.update_of_ne]
      · exact h.busy j m' hj
      · -- two threads are in members of different locks
        intro hname
        have hj' : (s.members j).map Member.name = some m.name := by
          rw [hj, ← hname]
          rfl
        have hi' : (s.members i).map Member.name = some m.name := by
          rw [hm]
          rfl
        exact hji (h.exclusive hj' hi')
    · have hdrop : (fun j => (drop s.members i j).map Member.name) =
          drop (fun j => (s.members j).map Member.name) i := by
        funext j
        simp only [drop, Function.update_apply]
        split
        · rfl
        · rfl
      change Exclusive fun j => (drop s.members i j).map Member.name
      rw [hdrop]
      exact h.exclusive.drop i
    · have hle : (m.claims success).toNat ≤ success.toNat := by
        cases m with
        | tryToLock n => exact le_rfl
        | _ => exact Nat.zero_le _
      change s.adopted + (s.claimed + (m.claims success).toNat) ≤ s.config.shared.grants
      omega
  · exact h

variable [DecidableEq F] {ndebug : Bool} {a : Semaphore.Act F}

theorem atomic_inv (h : Inv desired s) (ha : ∀ u, a = .release u → 0 ≤ u)
    (hs : s.atomic ndebug i a = some s') : Inv desired s' := by
  obtain ⟨config, hstep, rfl⟩ := Option.map_eq_some_iff.mp hs
  have hbalanced := Semaphore.step_balanced h.balanced ha hstep
  obtain ⟨g, l, hlocal, rfl⟩ := interleave_step.mp hstep
  have ht := Semaphore.step_trans hlocal
  have hacquired := trans_acquired ht
  have hgranted := trans_granted ht
  have htaken : s.adopted + s.claimed ≤
      s.config.shared.granted.length + s.config.shared.acquired := h.taken
  apply finish_inv
  · refine ⟨hbalanced, h.busy, h.exclusive, ?_⟩
    change s.adopted + s.claimed ≤ g.granted.length + g.acquired
    omega
  · change s.adopted + s.claimed + (decide (s.config.shared.acquired < g.acquired)).toNat ≤
      g.granted.length + g.acquired
    by_cases hlt : s.config.shared.acquired < g.acquired
    · rw [decide_eq_true hlt, Bool.toNat_true]
      omega
    · rw [decide_eq_false hlt, Bool.toNat_false]
      omega

theorem atomic_balance [Fintype κ] (h : Inv desired s) (hs : s.atomic ndebug i a = some s') :
    balance s' = balance s + released a := by
  obtain ⟨config, hstep, rfl⟩ := Option.map_eq_some_iff.mp hs
  obtain ⟨g, l, hlocal, rfl⟩ := interleave_step.mp hstep
  have hupdates : g.updates = s.config.shared.updates + released a :=
    trans_updates (Semaphore.step_trans hlocal)
  rw [balance_finish]
  · simp only [balance]
    omega
  · exact h.busy

theorem call_inv [Fintype κ] (h : Inv desired s) (hn : s.locks m.name ≠ .busy)
    (ha : ∀ u, a = .release u → 0 ≤ u) (hs : s.call ndebug i m a = some s') :
    Inv desired s' ∧ balance s' = balance s - owned (s.locks m.name) + released a := by
  unfold State.call at hs
  split at hs
  · have henter := enter_inv (i := i) h hn
    refine ⟨atomic_inv henter ha hs, ?_⟩
    rw [atomic_balance henter hs, balance_enter]
  · cases hs

theorem giveBack_inv [Fintype κ] (h : Inv desired s) (hb : balance s = 0) {l : Lock}
    (hn : s.locks m.name = .object l) (hown : l.ownsLock = true)
    (hs : s.call ndebug i m (.release 1) = some s') : Inv desired s' ∧ balance s' = 0 := by
  have hfree : s.locks m.name ≠ .busy := by
    rw [hn]
    nofun
  have hone : ∀ u, (.release 1 : Semaphore.Act F) = .release u → 0 ≤ u := by
    intro u hu
    cases hu
    exact zero_le_one
  have hown' : owned (.object l) = 1 := by
    rw [owned, hown]
    rfl
  obtain ⟨hinv, hbal⟩ := call_inv h hfree hone hs
  refine ⟨hinv, ?_⟩
  rw [hbal, hb, hn, hown']
  rfl

theorem step_inv [Fintype κ] {e : Event ι κ F} (h : Inv desired s) (hb : balance s = 0)
    (he : ∀ i u, e = .semaphore i (.release u) → 0 ≤ u) (hs : step ndebug s e = some s') :
    Inv desired s' ∧ balance s' = 0 := by
  cases e with
  | semaphore i a =>
    have hinv : Inv desired { s with outside := s.outside + released a } :=
      ⟨h.balanced, h.busy, h.exclusive, h.taken⟩
    refine ⟨atomic_inv hinv (fun u ha => he i u (by rw [ha])) hs, ?_⟩
    rw [atomic_balance hinv hs, ← hb]
    simp only [balance]
    omega
  | construct n =>
    rw [step] at hs
    split at hs
    · rename_i hn
      cases hs
      exact put_step h hb hn nofun h.taken rfl
    · cases hs
  | adoptLock n =>
    rw [step] at hs
    split at hs
    · cases hs
    rename_i hn
    rw [ne_eq, not_not] at hn
    split at hs
    · rename_i hfree
      cases hs
      refine put_step h hb hn nofun (by omega) ?_
      change 1 + (s.disowned : ℤ) - (s.adopted + 1 : ℕ) - s.copied =
        0 + s.disowned - s.adopted - s.copied
      omega
    split at hs
    · rename_i hdisowned
      cases hs
      refine put_step h hb hn nofun h.taken ?_
      change 1 + ((s.disowned - 1 : ℕ) : ℤ) - s.adopted - s.copied =
        0 + s.disowned - s.adopted - s.copied
      omega
    · cases hs
  | tryToLock i n =>
    rw [step] at hs
    split at hs
    · rename_i hn
      obtain ⟨hinv, hbal⟩ := call_inv (m := .tryToLock n) h (by rw [Member.name, hn]; nofun)
        (fun u hu => by cases hu) hs
      refine ⟨hinv, ?_⟩
      rw [hbal, hb, Member.name, hn]
      rfl
    · cases hs
  | deferLock n =>
    rw [step] at hs
    split at hs
    · rename_i hn
      cases hs
      exact put_step h hb hn nofun h.taken rfl
    · cases hs
  | copyConstruct n m =>
    rw [step] at hs
    split at hs
    · rename_i l hn hm
      cases hs
      refine put_step h hb hn nofun h.taken ?_
      change owned (.object l) + s.disowned - s.adopted - (s.copied + owned (.object l)) =
        0 + s.disowned - s.adopted - s.copied
      omega
    · cases hs
  | copyAssign n m =>
    rw [step] at hs
    split at hs
    · rename_i l' l hn hm
      cases hs
      refine put_step h hb hn nofun h.taken ?_
      change owned (.object l) + s.disowned - s.adopted -
        (s.copied + owned (.object l) - owned (.object l')) =
          owned (.object l') + s.disowned - s.adopted - s.copied
      omega
    · cases hs
  | release n =>
    rw [step] at hs
    split at hs
    · rename_i l hn
      cases hs
      refine put_step h hb hn nofun h.taken ?_
      change 0 + ((s.disowned + l.ownsLock.toNat : ℕ) : ℤ) - s.adopted - s.copied =
        l.ownsLock.toNat + s.disowned - s.adopted - s.copied
      omega
    · cases hs
  | unlock i n =>
    rw [step] at hs
    split at hs
    · rename_i l hn
      split at hs
      · rename_i hown
        exact giveBack_inv (m := .unlock n) h hb hn hown hs
      · cases hs
        exact ⟨h, hb⟩
    · cases hs
  | destroy i n =>
    rw [step] at hs
    split at hs
    · rename_i l hn
      split at hs
      · rename_i hown
        exact giveBack_inv (m := .destroy n) h hb hn hown hs
      · rename_i hown
        have hzero : owned (.object l) = 0 := by rw [owned, Bool.eq_false_iff.mpr hown]; rfl
        cases hs
        refine put_step h hb hn nofun h.taken ?_
        rw [hzero]
        rfl
    · cases hs

theorem run_inv [Fintype κ] (hd : 0 ≤ desired) {events : List (Event ι κ F)}
    (hevents : ∀ i u, .semaphore i (.release u) ∈ events → 0 ≤ u)
    (h : (machine ι κ F ndebug).run (initial desired) events = some s) :
    Inv desired s ∧ balance s = 0 := by
  have hnonneg : ∀ e ∈ events, ∀ i u, e = .semaphore i (.release u) → 0 ≤ u := by
    intro e he i u heq
    exact hevents i u (heq ▸ he)
  refine Machine.invariant_of_along (I := fun s => Inv desired s ∧ balance s = 0)
    (C := fun _ e _ => ∀ i u, e = .semaphore i (.release u) → 0 ≤ u) ?_
    ⟨initial_inv hd, initial_balance desired⟩ (Machine.along_of_forall hnonneg) h
  intro s e s' hs he hstep
  change (if s.config.shared.aborted then none else step ndebug s e) = some s' at hstep
  split at hstep
  · cases hstep
  · exact step_inv hs.1 hs.2 he hstep

/-- The permits that were granted and are in no lock: those of completions that have not been
called, and those that were acquired without a lock. -/
def unclaimed (s : State ι κ F) : ℤ := s.config.shared.grants - s.adopted - s.claimed

theorem permits_le [Fintype κ] (hd : 0 ≤ desired) {events : List (Event ι κ F)}
    (hevents : ∀ i u, .semaphore i (.release u) ∈ events → 0 ≤ u)
    (h : (machine ι κ F ndebug).run (initial desired) events = some s) :
    0 ≤ unclaimed s ∧
      total owned s.locks + s.disowned + unclaimed s ≤ desired + s.copied + s.outside := by
  obtain ⟨hinv, hb⟩ := run_inv hd hevents h
  have htaken := hinv.taken
  have hle := hinv.balanced.grants_le
  simp only [balance] at hb
  simp only [unclaimed]
  exact ⟨by omega, by omega⟩

/-- With one permit, and without copies, the lock that owns it is the only one. -/
theorem owner_unique [Fintype κ] {events : List (Event ι κ F)}
    (hevents : ∀ i u, .semaphore i (.release u) ∈ events → 0 ≤ u)
    (h : (machine ι κ F ndebug).run (initial 1) events = some s)
    (hcopied : s.copied = 0) (houtside : s.outside = 0) {n n' : κ}
    (hn : owned (s.locks n) = 1) (hn' : owned (s.locks n') = 1) : n = n' := by
  obtain ⟨hunclaimed, hle⟩ := permits_le zero_le_one hevents h
  by_contra hne
  have hpair : owned (s.locks n) + owned (s.locks n') ≤ total owned s.locks := by
    rw [← Finset.sum_pair (f := fun k => owned (s.locks k)) hne]
    exact Finset.sum_le_sum_of_subset_of_nonneg (Finset.subset_univ _)
      fun k _ _ => owned_nonneg (s.locks k)
  omega

/-- Whatever any number of threads do with the locks and however their atomic actions
interleave: no more locks own a permit than there are permits, copies of owning locks and
permits released without a lock.  When no thread is inside the semaphore, what the counter
says beyond the waiters, the locks, and the permits disowned or unclaimed are all of them. -/
theorem permits_kept [Fintype κ] (ndebug : Bool) (hd : 0 ≤ desired) {events : List (Event ι κ F)}
    (hevents : ∀ i u, .semaphore i (.release u) ∈ events → 0 ≤ u)
    (h : (machine ι κ F ndebug).run (initial desired) events = some s) :
    0 ≤ unclaimed s ∧
      total owned s.locks + s.disowned + unclaimed s ≤ desired + s.copied + s.outside ∧
      ((∀ i, s.config.threads i = .idle) →
        s.config.shared.count + s.config.shared.functions.length + total owned s.locks +
          s.disowned + unclaimed s = desired + s.copied + s.outside) := by
  obtain ⟨hunclaimed, hle⟩ := permits_le hd hevents h
  refine ⟨hunclaimed, hle, fun hidle => ?_⟩
  obtain ⟨hinv, hb⟩ := run_inv hd hevents h
  have hheld : total Local.held s.config.threads = 0 := by
    refine Finset.sum_eq_zero fun i _ => ?_
    rw [hidle i]
    rfl
  have hledger := hinv.balanced.ledger
  simp only [balance] at hb
  simp only [unclaimed]
  omega

def copiedRun : List (Event Bool (Fin 3) ℕ) :=
  [.tryToLock false 0, .semaphore true (.asyncAcquire 7), .semaphore true .post,
    .semaphore false .compareExchange, .semaphore false .compareExchange, .adoptLock 1,
    .copyConstruct 2 1]

/-- Three locks own two permits. -/
theorem permits_kept_copied : ∃ s,
    (machine Bool (Fin 3) ℕ true).run (initial 2) copiedRun = some s ∧
      total owned s.locks = 3 ∧ s.copied = 1 ∧
      total owned s.locks + s.disowned + unclaimed s ≤ 2 + s.copied + s.outside := by
  have hevents : ∀ i u, .semaphore i (.release u) ∈ copiedRun → 0 ≤ u := by
    intro i u hm
    simp [copiedRun] at hm
  obtain ⟨s, h, howned, hcopied⟩ : ∃ s,
      (machine Bool (Fin 3) ℕ true).run (initial 2) copiedRun = some s ∧
        total owned s.locks = 3 ∧ s.copied = 1 := ⟨_, rfl, by decide, rfl⟩
  exact ⟨s, h, howned, hcopied, (permits_kept true zero_le_two hevents h).2.1⟩

end BadIo.UniqueLock.Exclusion
