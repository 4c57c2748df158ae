import BadIo.Uring.Concurrent

namespace BadIo.Uring.Concurrent

open Native

variable {k : ℕ} {E C : Type*}

def Local.holds : Local E → Mutex → Bool
  | .filling _ _, .sq => true
  | .flushLock, .cq => true
  | .flushing, _ => true
  | .flushed, _ => true
  | .harvesting, .cq => true
  | .leaving, .cq => true
  | _, _ => false

def Local.wants : Local E → Option Mutex
  | .submitting _ => some .sq
  | .entering _ => some .cq
  | .flushLock => some .sq
  | _ => none

def locking (E : Type*) : Locking (Local E) Mutex := ⟨Local.holds, Local.wants⟩

def Mutex.rank : Mutex → ℕ
  | .cq => 0
  | .sq => 1

/-- `wait_many` takes the mutex of the submission side last. -/
theorem locking_ordered : (locking E).Ordered Mutex.rank := by
  intro l m n hw hh
  cases l with
  | flushLock =>
    cases hw
    cases n with
    | cq => exact Nat.one_pos
    | sq => cases hh
  | submitting | entering => cases n <;> cases hh
  | _ => cases hw

theorem afterFlush_holds (wait : WaitMany.State k C) (m : Mutex) :
    (afterFlush wait : Local E).holds m = decide (m = .cq) := by
  unfold afterFlush
  split <;> cases m <;> rfl

theorem flush_holds (p : Prop) [Decidable p] (m : Mutex) :
    (if p then .flushing else .flushed : Local E).holds m = true := by
  split <;> rfl

theorem trans_locks {g g' : Shared k E C} {l l' : Local E} {a : Act E} (h : Trans g l a g' l') :
    (locking E).Step g.locked l g'.locked l' := by
  intro m
  change Locking.Turn (g.locked m) (l.holds m) (g'.locked m) (l'.holds m)
  cases h with
  | lockSubmit submissions hfree | lockFlush hfree =>
    cases m with
    | cq => exact .inl ⟨rfl, rfl⟩
    | sq => exact .inr (.inl ⟨hfree, rfl, rfl⟩)
  | lockWait span wait hfree =>
    cases m with
    | cq => exact .inr (.inl ⟨hfree, rfl, rfl⟩)
    | sq => exact .inl ⟨rfl, rfl⟩
  | unlockSubmit =>
    cases m with
    | cq => exact .inl ⟨rfl, rfl⟩
    | sq => exact .inr (.inr ⟨rfl, rfl, rfl⟩)
  | flush result wait => exact .inl ⟨by cases m <;> rfl, flush_holds _ m⟩
  | unlockFlush =>
    rw [afterFlush_holds]
    cases m with
    | cq => exact .inl ⟨rfl, rfl⟩
    | sq => exact .inr (.inr ⟨rfl, rfl, rfl⟩)
  | harvest b wait =>
    rw [afterFlush_holds]
    cases m <;> exact .inl ⟨rfl, rfl⟩
  | unlockWait =>
    cases m with
    | cq => exact .inr (.inr ⟨rfl, rfl, rfl⟩)
    | sq => exact .inl ⟨rfl, rfl⟩
  | _ => exact .inl ⟨by cases m <;> rfl, by cases m <;> rfl⟩

def Settled (p : WaitMany.Phase) : Prop := p ≠ .aborted ∧ ∀ f, p ≠ .submitting f

def Local.Expects : Local E → WaitMany.Phase → Prop
  | .filling _ phase, _ => phase ≠ .aborted
  | .flushLock, p => ∃ f, p = .submitting f
  | .flushing, p => ∃ f, p = .submitting f
  | .flushed, p => Settled p
  | .harvesting, p => Settled p ∧ p ≠ .idle
  | .leaving, p => p = .idle
  | _, _ => True

def Bounded (wait : WaitMany.State k C) : Prop :=
  ∀ f head seen, wait.phase = .walking f head seen → seen ≤ f.span.length

theorem Local.Expects.of_not_holds {l : Local E} {p : WaitMany.Phase} (h : l.Expects p)
    (hh : l.holds .cq = false) (p' : WaitMany.Phase) : l.Expects p' := by
  cases l with
  | filling pending phase => exact h
  | idle | submitting | entering => trivial
  | _ => cases hh

theorem afterFlush_expects {wait : WaitMany.State k C} (h : Settled wait.phase) :
    (afterFlush wait : Local E).Expects wait.phase := by
  unfold afterFlush
  split
  · assumption
  · exact ⟨h, ‹_›⟩

theorem bounded_step {wait wait' : WaitMany.State k C} {a : WaitMany.Action C}
    (hb : Bounded wait) (h : WaitMany.step .synchronized wait a = some wait') :
    Bounded wait' := by
  intro f' head' seen' hp'
  cases WaitMany.step_trans h with
  | publish | again => exact hb f' head' seen' hp'
  | startWalk =>
    cases hp'
    exact Nat.zero_le _
  | copy f head seen buffer hp hmore hbuffer =>
    cases hp'
    exact (List.getElem?_eq_some_iff.mp hbuffer).1
  | _ => cases hp'

theorem walk_enabled {wait : WaitMany.State k C} {f : WaitMany.Frame} {head : BitVec 32}
    {seen : ℕ} (hb : seen ≤ f.span.length) :
    ∃ wait', wait.walk f head seen = some wait' := by
  unfold WaitMany.State.walk
  by_cases htail : head = wait.ring.tail
  · exact ⟨_, if_pos htail⟩
  rw [if_neg htail]
  by_cases hfull : seen = f.span.length
  · exact ⟨_, if_pos hfull⟩
  · rw [if_neg hfull, List.getElem?_eq_getElem (by omega)]
    exact ⟨_, rfl⟩

theorem submitted_eq {wait wait' : WaitMany.State k C} {result : ℤ}
    (h : WaitMany.step .synchronized wait (.submitted result) = some wait') :
    ∃ f, wait.phase = .submitting f ∧
      wait' = WaitMany.Synchronized.submitted wait f result := by
  simp only [WaitMany.step] at h
  split at h
  · cases ‹Context.synchronized = .unsynchronized›
  · exact ⟨_, ‹_›, (Option.some.inj h).symm⟩
  · cases h

theorem submitted_phase {wait wait' : WaitMany.State k C} {result : ℤ}
    (h : WaitMany.step .synchronized wait (.submitted result) = some wait') :
    Turn.of result = .again ∧ wait' = wait ∨ Turn.of result = .abort ∨
      Turn.of result ≠ .again ∧ Settled wait'.phase := by
  obtain ⟨f, -, rfl⟩ := submitted_eq h
  unfold WaitMany.Synchronized.submitted
  split
  · rename_i ht
    exact .inl ⟨ht, rfl⟩
  · rename_i ht
    exact .inr (.inl ht)
  · rename_i r ht
    refine .inr (.inr ⟨ht ▸ nofun, ?_⟩)
    split
    · exact ⟨nofun, nofun⟩
    · exact ⟨nofun, nofun⟩

theorem harvest_settled {wait wait' : WaitMany.State k C} {a : Harvest}
    (h : WaitMany.step .synchronized wait a.action = some wait') : Settled wait'.phase := by
  have ht := WaitMany.step_trans h
  cases a with
  | wait error =>
    change WaitMany.Trans wait (.waited error) wait' at ht
    cases ht <;> exact ⟨nofun, nofun⟩
  | walk =>
    change WaitMany.Trans wait .walk wait' at ht
    cases ht <;> exact ⟨nofun, nofun⟩
  | advance =>
    change WaitMany.Trans wait .advance wait' at ht
    cases ht <;> exact ⟨nofun, nofun⟩

section Steps

variable {g g' : Shared k E C} {l l' : Local E} {a : Act E}

theorem trans_phase (h : Trans g l a g' l') :
    g'.wait.phase = g.wait.phase ∨ l.holds .cq = true ∨ g.cqMutex = false := by
  -- only the holder of `m_cq_mutex`, or the thread that is taking it, moves the call of
  -- `wait_many` on
  cases h with
  | lockWait span wait hfree => exact .inr (.inr hfree)
  | flush | harvest => exact .inr (.inl rfl)
  | _ => exact .inl rfl

theorem trans_bounded (h : Trans g l a g' l') (hb : Bounded g.wait) : Bounded g'.wait := by
  cases h with
  | lockWait span wait hfree hw => exact bounded_step hb hw
  | flush result wait hw => exact bounded_step hb hw
  | harvest b wait hw => exact bounded_step hb hw
  | _ => exact hb

theorem trans_expects (h : Trans g l a g' l') (ha : g'.aborted = false)
    (hl : l.Expects g.wait.phase) : l'.Expects g'.wait.phase := by
  cases h with
  | submitMany | waitMany | unlockSubmit | unlockWait => trivial
  | lockSubmit => exact nofun
  | fill pending phase b c hc => exact of_decide_eq_false ha
  | lockWait span wait hfree hw =>
    simp only [WaitMany.step] at hw
    split at hw
    · cases hw
      exact ⟨_, rfl⟩
    · cases hw
  | lockFlush => exact hl
  | flush result wait hw =>
    rcases submitted_phase hw with ⟨ht, rfl⟩ | ht | ⟨ht, hs⟩
    · rw [if_pos ht]
      exact hl
    · exact absurd ht (of_decide_eq_false ha)
    · rw [if_neg ht]
      exact hs
  | unlockFlush => exact afterFlush_expects hl
  | harvest b wait hw => exact afterFlush_expects (harvest_settled hw)

theorem trans_free (h : Trans g l a g' l') (hh : l.holds .cq = true → g.cqMutex = true)
    (hl : l.Expects g.wait.phase) (hfree : g.cqMutex = false → g.wait.phase = .idle)
    (hcq : g'.cqMutex = false) : g'.wait.phase = .idle := by
  -- while nobody holds `m_cq_mutex`, no call of `wait_many` is under way
  cases h with
  | lockWait => cases hcq
  | flush | harvest => exact absurd (hcq.symm.trans (hh rfl)) Bool.false_ne_true
  | unlockWait => exact hl
  | _ => exact hfree hcq

end Steps

variable {ι : Type*}

structure Inv (s : Config ι (Shared k E C) (Local E)) : Prop where
  guarded : (locking E).Guarded s.shared.locked s.threads
  bounded : Bounded s.shared.wait
  expects : s.shared.aborted = false → ∀ i, (s.threads i).Expects s.shared.wait.phase
  free : s.shared.aborted = false → s.shared.cqMutex = false → s.shared.wait.phase = .idle

variable {s s' : Config ι (Shared k E C) (Local E)}

theorem initial_inv (capacity : ℕ) (slots : BitVec k → C) (buffers : WaitMany.Buffer → C) :
    Inv (initial capacity slots buffers : Config ι (Shared k E C) (Local E)) where
  guarded := by
    have hlocked : (initial capacity slots buffers : Config ι (Shared k E C) (Local E)).shared.locked =
        fun _ => false := by
      funext m
      cases m <;> rfl
    rw [hlocked]
    exact Locking.guarded_idle fun m => by cases m <;> rfl
  bounded _ _ _ hp := nomatch hp
  expects _ _ := trivial
  free _ _ := rfl

theorem Inv.publish (hs : Inv s) {cqe : C} {wait : WaitMany.State k C}
    (hw : WaitMany.step .synchronized s.shared.wait (.publish cqe) = some wait) :
    Inv { s with shared := { s.shared with wait } } := by
  have hphase : wait.phase = s.shared.wait.phase := by
    obtain ⟨ring, -, rfl⟩ := Option.map_eq_some_iff.mp hw
    rfl
  refine ⟨⟨?_, ?_, hs.guarded.exclusive⟩, bounded_step hs.bounded hw, fun ha j => ?_, fun ha hcq => ?_⟩
  · intro j m hm
    cases m <;> exact hs.guarded.holding j _ hm
  · intro m hm
    cases m <;> exact hs.guarded.held _ hm
  · change (s.threads j).Expects wait.phase
    rw [hphase]
    exact hs.expects ha j
  · exact hphase.trans (hs.free ha hcq)

variable [DecidableEq ι]

theorem Inv.trans (hs : Inv s) {i : ι} {a : Act E} {g : Shared k E C} {l : Local E}
    (ha : s.shared.aborted = false) (h : Trans s.shared (s.threads i) a g l) :
    Inv ⟨g, Function.update s.threads i l⟩ := by
  refine ⟨hs.guarded.step (trans_locks h), trans_bounded h hs.bounded, fun hg j => ?_, fun hg => ?_⟩
  · change (Function.update s.threads i l j).Expects g.wait.phase
    by_cases hj : j = i
    · subst hj
      rw [Function.update_self]
      exact trans_expects h hg (hs.expects ha j)
    · rw [Function.update_of_ne hj]
      -- if the phase has changed, `j` does not hold the mutex, for `i` does or nobody did
      rcases trans_phase h with hp | hi
      · rw [hp]
        exact hs.expects ha j
      · refine (hs.expects ha j).of_not_holds (Bool.eq_false_iff.mpr fun hjh => ?_) _
        rcases hi with hi | hfree
        · exact hj (hs.guarded.exclusive j i .cq hjh hi)
        · exact absurd (hfree.symm.trans (hs.guarded.holding j .cq hjh)) Bool.false_ne_true
  · exact trans_free h (hs.guarded.holding i .cq) (hs.expects ha i) (hs.free ha)

theorem step_inv (hs : Inv s) {e : ι × Act E ⊕ C} (h : (machine ι k E C).step s e = some s') :
    Inv s' := by
  obtain ⟨ha, ⟨i, a, g, l, rfl, ht, rfl⟩ | ⟨cqe, wait, rfl, hw, rfl⟩⟩ := machine_step h
  · exact hs.trans ha ht
  · exact hs.publish hw

theorem run_inv {capacity : ℕ} {slots : BitVec k → C} {buffers : WaitMany.Buffer → C}
    {es : List (ι × Act E ⊕ C)}
    (h : (machine ι k E C).run (initial capacity slots buffers) es = some s) : Inv s :=
  Machine.invariant_of_step (fun _ _ _ hs hstep => step_inv hs hstep)
    (initial_inv capacity slots buffers) h

theorem enter_enabled {wait : WaitMany.State k C} (span : List WaitMany.Buffer)
    (hp : wait.phase = .idle) :
    ∃ wait', WaitMany.step .synchronized wait (.enter span) = some wait' := by
  simp only [WaitMany.step, hp]
  exact ⟨_, rfl⟩

theorem harvest_enabled {wait : WaitMany.State k C} (hs : Settled wait.phase)
    (hp : wait.phase ≠ .idle) (hb : Bounded wait) :
    ∃ (a : Harvest) (wait' : WaitMany.State k C),
      WaitMany.step .synchronized wait a.action = some wait' := by
  -- the kernel may interrupt the wait; the rest is up to the thread
  cases hphase : wait.phase with
  | idle => exact absurd hphase hp
  | submitting f => exact absurd hphase (hs.2 f)
  | waiting f =>
    refine ⟨.wait (-EINTR), ?_⟩
    simp only [Harvest.action, WaitMany.step, hphase]
    exact ⟨_, rfl⟩
  | walking f head seen =>
    refine ⟨.walk, ?_⟩
    simp only [Harvest.action, WaitMany.step, hphase]
    exact walk_enabled (hb f head seen hphase)
  | advancing f seen available =>
    refine ⟨.advance, ?_⟩
    simp only [Harvest.action, WaitMany.step, hphase]
    exact ⟨_, rfl⟩
  | aborted => exact absurd hphase hs.1

theorem exists_trans {g : Shared k E C} {l : Local E} (hl : l ≠ .idle)
    (hexp : l.Expects g.wait.phase) (hb : Bounded g.wait)
    (hfree : g.cqMutex = false → g.wait.phase = .idle)
    (hw : ∀ m, l.wants = some m → g.locked m = false) : ∃ a g' l', Trans g l a g' l' := by
  -- a thread inside a call that does not wait for a locked mutex can go on
  cases l with
  | idle => exact absurd rfl hl
  | submitting submissions => exact ⟨_, _, _, .lockSubmit submissions (hw .sq rfl)⟩
  | filling pending phase =>
    cases phase with
    | getSqe =>
      cases pending with
      | nil => exact ⟨_, _, _, .fill _ _ .getSqe _ (Appending.step_finish rfl rfl)⟩
      | cons submission rest =>
        cases hroom : g.ring.hasRoom with
        | true => exact ⟨_, _, _, .fill _ _ .getSqe _ (Appending.step_append rfl rfl hroom)⟩
        | false => exact ⟨_, _, _, .fill _ _ .getSqe _ (Appending.step_full rfl rfl hroom)⟩
    | flush => exact ⟨_, _, _, .fill _ _ (.submit 1) _ (Appending.step_submit rfl)⟩
    | returned r => exact ⟨_, _, _, .unlockSubmit pending r⟩
    | aborted => exact absurd rfl hexp
  | entering span =>
    have hcq : g.cqMutex = false := hw .cq rfl
    obtain ⟨wait, hwait⟩ := enter_enabled span (hfree hcq)
    exact ⟨_, _, _, .lockWait span wait hcq hwait⟩
  | flushLock => exact ⟨_, _, _, .lockFlush (hw .sq rfl)⟩
  | flushing =>
    obtain ⟨f, hp⟩ := hexp
    exact ⟨_, _, _, .flush 1 (WaitMany.Synchronized.submitted g.wait f 1)
      (by simp only [WaitMany.step, hp])⟩
  | flushed => exact ⟨_, _, _, .unlockFlush⟩
  | harvesting =>
    obtain ⟨a, wait, hwait⟩ := harvest_enabled hexp.1 hexp.2 hb
    exact ⟨_, _, _, .harvest a wait hwait⟩
  | leaving => exact ⟨_, _, _, .unlockWait⟩

theorem Local.ne_idle_of_holds {l : Local E} {m : Mutex} (h : l.holds m = true) : l ≠ .idle := by
  rintro rfl
  cases m <;> cases h

/-- Each mutex has at most one holder; and while some thread is inside a call, and the
process has not been aborted, some thread inside a call can take a step. -/
theorem no_deadlock {capacity : ℕ} {slots : BitVec k → C} {buffers : WaitMany.Buffer → C}
    {es : List (ι × Act E ⊕ C)}
    (h : (machine ι k E C).run (initial capacity slots buffers) es = some s) :
    (∀ i j m, (s.threads i).holds m = true → (s.threads j).holds m = true → i = j) ∧
      (s.shared.aborted = false → (∃ i, s.threads i ≠ .idle) →
        ∃ i a s', s.threads i ≠ .idle ∧ (machine ι k E C).step s (.inl (i, a)) = some s') := by
  have hs := run_inv h
  refine ⟨hs.guarded.exclusive, fun ha ⟨i, hi⟩ => ?_⟩
  -- where a mutex is locked, its holders are looked at in the order of the mutexes
  obtain ⟨j, hj, hw⟩ : ∃ j, s.threads j ≠ .idle ∧
      ∀ m, (s.threads j).wants = some m → s.shared.locked m = false := by
    by_cases hfree : ∃ m, s.shared.locked m = true
    · obtain ⟨m, hm⟩ := hfree
      obtain ⟨j, n, hjn, hw⟩ := hs.guarded.exists_unblocked locking_ordered 1
        (fun m => by cases m <;> decide) hm
      exact ⟨j, Local.ne_idle_of_holds hjn, hw⟩
    · exact ⟨i, hi, fun m _ => Bool.eq_false_iff.mpr fun hm => hfree ⟨m, hm⟩⟩
  obtain ⟨a, g, l, ht⟩ := exists_trans hj (hs.expects ha j) hs.bounded (hs.free ha) hw
  refine ⟨j, a, ⟨g, Function.update s.threads j l⟩, hj, ?_⟩
  exact interleave_step.mpr ⟨g, l, trans_step ha ht, rfl⟩

/-- Two threads meet: one waits for the mutex that the other one fills the ring under. -/
def crossing : List (Bool × Act ℕ ⊕ ℕ) :=
  [.inl (true, .waitMany [40]), .inl (true, .lock), .inl (false, .submitMany [7, 8]),
    .inl (false, .lock), .inl (false, .fill .getSqe)]

theorem no_deadlock_crossing : ∃ s,
    (machine Bool 1 ℕ ℕ).run (initial 2 (fun _ => 0) fun _ => 0) crossing = some s ∧
      (s.threads true).wants = some .sq ∧ s.shared.sqMutex = true ∧
      ∃ i a s', s.threads i ≠ .idle ∧ (machine Bool 1 ℕ ℕ).step s (.inl (i, a)) = some s' := by
  obtain ⟨s, h, ha, hw, hsq⟩ : ∃ s,
      (machine Bool 1 ℕ ℕ).run (initial 2 (fun _ => 0) fun _ => 0) crossing = some s ∧
        s.shared.aborted = false ∧ (s.threads true).wants = some .sq ∧ s.shared.sqMutex = true :=
    ⟨_, rfl, rfl, rfl, rfl⟩
  refine ⟨s, h, hw, hsq, (no_deadlock h).2 ha ⟨true, fun hidle => ?_⟩⟩
  rw [hidle] at hw
  cases hw

/-- `io_uring_submit` reports to thread `i` how many of the queued entries it has taken, and
no error. -/
def Succeeds (i : ι) (s : Config ι (Shared k E C) (Local E)) (e : ι × Act E ⊕ C) : Prop :=
  ∀ result, e = .inl (i, .submit result) → 0 ≤ result ∧ result ≤ s.shared.ring.entries.length

/-- Thread `i` has not left its flush, and no call has got anywhere since. -/
structure Halted (i : ι) (s t : Config ι (Shared k E C) (Local E)) : Prop where
  flushing : t.threads i = .flushing
  ring : t.shared.ring = s.shared.ring
  handed : t.shared.handed = s.shared.handed
  entered : t.shared.entered = s.shared.entered
  calls : t.shared.wait.calls = s.shared.wait.calls

theorem trans_outside {g g' : Shared k E C} {l l' : Local E} {a : Act E} (h : Trans g l a g' l')
    (hl : ∀ m, l.holds m = false) (hg : ∀ m, g.locked m = true) : g' = g := by
  cases h with
  | submitMany | waitMany => rfl
  | lockSubmit submissions hfree => exact absurd (hfree.symm.trans (hg .sq)) Bool.false_ne_true
  | lockWait span wait hfree => exact absurd (hfree.symm.trans (hg .cq)) Bool.false_ne_true
  | fill | unlockSubmit => cases hl .sq
  | lockFlush | flush | unlockFlush | harvest | unlockWait => cases hl .cq

theorem trans_spins {g g' : Shared k E C} {l' : Local E} {a : Act E}
    (h : Trans g .flushing a g' l') (hempty : g.ring.entries = [])
    (hk : ∀ result, a = .submit result → 0 ≤ result ∧ result ≤ g.ring.entries.length) :
    l' = .flushing ∧ g'.ring = g.ring ∧ g'.handed = g.handed ∧ g'.entered = g.entered ∧
      g'.wait = g.wait := by
  -- nothing is there to be submitted, so the flush goes round again
  cases h with
  | flush result wait hw =>
    obtain ⟨hpos, hle⟩ := hk result rfl
    rw [hempty] at hle
    obtain rfl : result = 0 := le_antisymm hle hpos
    have ht : Turn.of 0 = .again := rfl
    rcases submitted_phase hw with ⟨-, rfl⟩ | habort | ⟨hne, -⟩
    · refine ⟨if_pos ht, SubmissionRing.submit_of_nonpos le_rfl, ?_, rfl, rfl⟩
      exact List.append_nil g.handed
    · cases habort
    · exact absurd ht hne

theorem step_halted {i : ι} {s t t' : Config ι (Shared k E C) (Local E)} (hI : Inv t)
    (hempty : s.shared.ring.entries = []) (hh : Halted i s t) {e : ι × Act E ⊕ C}
    (hk : Succeeds i t e) (h : (machine ι k E C).step t e = some t') : Halted i s t' := by
  obtain ⟨hi, hr, hd, he, hc⟩ := hh
  obtain ⟨-, ⟨j, a, g, l, rfl, ht, rfl⟩ | ⟨cqe, wait, rfl, hw, rfl⟩⟩ := machine_step h
  · by_cases hj : j = i
    · subst hj
      rw [hi] at ht
      obtain ⟨rfl, hr', hd', he', hw'⟩ := trans_spins ht (hr ▸ hempty)
        fun result ha => hk result (ha ▸ rfl)
      exact ⟨Function.update_self .., hr'.trans hr, hd'.trans hd, he'.trans he, by
        rw [hw']
        exact hc⟩
    · have hheld : ∀ m, (locking E).holds (t.threads i) m = true := by
        intro m
        rw [hi]
        cases m <;> rfl
      have hg : g = t.shared := by
        refine trans_outside ht (fun m => ?_) fun m => hI.guarded.holding i m (hheld m)
        exact Bool.eq_false_iff.mpr fun hm => hj (hI.guarded.exclusive j i m hm (hheld m))
      subst hg
      exact ⟨(Function.update_of_ne (Ne.symm hj) ..).trans hi, hr, hd, he, hc⟩
  · obtain ⟨ring, -, rfl⟩ := Option.map_eq_some_iff.mp hw
    exact ⟨hi, hr, hd, he, hc⟩

/-- A call of `wait_many` that comes to flush an empty ring halts the context: as long as
`io_uring_submit` reports no error, the call stays in its flush, and no other thread gets
to append a submission or to return from `wait_many`, whatever the threads do. -/
theorem empty_flush_halts {capacity : ℕ} {slots : BitVec k → C} {buffers : WaitMany.Buffer → C}
    {es es' : List (ι × Act E ⊕ C)} {i : ι} {t : Config ι (Shared k E C) (Local E)}
    (h : (machine ι k E C).run (initial capacity slots buffers) es = some s)
    (hi : s.threads i = .flushing) (hempty : s.shared.ring.entries = [])
    (hk : (machine ι k E C).Along (fun s e _ => Succeeds i s e) s es')
    (ht : (machine ι k E C).run s es' = some t) :
    Halted i s t ∧ ∀ j m, j ≠ i → (t.threads j).holds m = false := by
  have hinv : Inv t ∧ Halted i s t := Machine.invariant_of_along (I := fun t => Inv t ∧ Halted i s t)
    (fun u e u' hu hc hstep => ⟨step_inv hu.1 hstep, step_halted hu.1 hempty hu.2 hc hstep⟩)
    ⟨run_inv h, hi, rfl, rfl, rfl, rfl⟩ hk ht
  refine ⟨hinv.2, fun j m hj => Bool.eq_false_iff.mpr fun hm => hj ?_⟩
  refine hinv.1.guarded.exclusive j i m hm ?_
  change (t.threads i).holds m = true
  rw [hinv.2.flushing]
  cases m <;> rfl

/-- A new context: one thread waits for completions, and the other one cannot submit. -/
theorem empty_flush_halts_new : ∃ s t,
    (machine Bool 1 ℕ ℕ).run (initial 2 (fun _ => 0) fun _ => 0)
        [.inl (true, .waitMany [40]), .inl (true, .lock), .inl (true, .lock)] = some s ∧
      (machine Bool 1 ℕ ℕ).run s
        [.inl (true, .submit 0), .inl (false, .submitMany [7]), .inl (true, .submit 0)] = some t ∧
      t.threads false = .submitting [7] ∧ Halted true s t := by
  obtain ⟨s, h, hi, hempty, hnext⟩ : ∃ s,
      (machine Bool 1 ℕ ℕ).run (initial 2 (fun _ => 0) fun _ => 0)
          [.inl (true, .waitMany [40]), .inl (true, .lock), .inl (true, .lock)] = some s ∧
        s.threads true = .flushing ∧ s.shared.ring.entries = [] ∧ ∃ t,
          (machine Bool 1 ℕ ℕ).run s
            [.inl (true, .submit 0), .inl (false, .submitMany [7]), .inl (true, .submit 0)] =
              some t ∧ t.threads false = .submitting [7] :=
    ⟨_, rfl, rfl, rfl, _, rfl, rfl⟩
  obtain ⟨t, ht, hf⟩ := hnext
  refine ⟨s, t, h, ht, hf, (empty_flush_halts h hi hempty ?_ ht).1⟩
  refine Machine.along_of_along (I := fun _ => True)
    (C := fun _ e _ => ∀ result, e = .inl (true, Act.submit result) → result = 0)
    (fun s e _ _ hc _ => ⟨trivial, fun result he => ?_⟩) trivial (Machine.along_of_forall ?_)
  · rw [hc result he]
    exact ⟨le_rfl, Int.natCast_nonneg _⟩
  · simp

end BadIo.Uring.Concurrent
