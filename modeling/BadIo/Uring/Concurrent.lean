import BadIo.Mutexes
import BadIo.Uring.Appending
import BadIo.Uring.WaitMany

namespace BadIo.Uring.Concurrent

open Native

inductive Mutex where
  | cq
  | sq
  deriving DecidableEq

/-- The members of the context.  The entries `handed` to the kernel, and the submissions of
the calls of `submit_many` in the order in which they `entered` the mutex, only record what
has happened. -/
structure Shared (k : ℕ) (E C : Type*) where
  sqMutex : Bool
  cqMutex : Bool
  ring : SubmissionRing E
  wait : WaitMany.State k C
  aborted : Bool
  handed : List E
  entered : List (List E)

/-- Where a thread stands in the call it is executing. -/
inductive Local (E : Type*) where
  | idle
  /-- In `submit_many`, before the mutex. -/
  | submitting (submissions : List E)
  | filling (pending : List E) (phase : Appending.Phase)
  /-- In `wait_many`, before its mutex. -/
  | entering (span : List WaitMany.Buffer)
  | flushLock
  | flushing
  | flushed
  | harvesting
  | leaving
  deriving DecidableEq

inductive Harvest where
  | wait (error : ℤ)
  | walk
  | advance
  deriving DecidableEq

inductive Act (E : Type*) where
  | submitMany (submissions : List E)
  | waitMany (span : List WaitMany.Buffer)
  | lock
  | unlock
  | fill (a : Appending.Act)
  | submit (result : ℤ)
  | harvest (a : Harvest)
  deriving DecidableEq

variable {k : ℕ} {E C : Type*}

def Harvest.action : Harvest → WaitMany.Action C
  | .wait error => .waited error
  | .walk => .walk
  | .advance => .advance

def Shared.locked (g : Shared k E C) : Mutex → Bool
  | .cq => g.cqMutex
  | .sq => g.sqMutex

def Shared.appended (g : Shared k E C) : List E := g.handed ++ g.ring.entries

def Shared.call (g : Shared k E C) (pending : List E) (phase : Appending.Phase) :
    Appending.Call E :=
  ⟨g.ring, pending, phase, g.handed, []⟩

/-- `io_uring_submit` has returned `result` in the flush of `wait_many`. -/
def Shared.flush (g : Shared k E C) (result : ℤ) (wait : WaitMany.State k C) : Shared k E C :=
  { g with
    wait
    ring := g.ring.submit result
    handed := g.handed ++ g.ring.entries.take result.toNat
    aborted := Turn.of result = .abort }

def Shared.fill (g : Shared k E C) (c : Appending.Call E) : Shared k E C :=
  { g with ring := c.ring, handed := c.handed, aborted := c.phase = .aborted }

def afterFlush (wait : WaitMany.State k C) : Local E :=
  if wait.phase = .idle then .leaving else .harvesting

/-- `submit_many` holds `m_sq_mutex`; `wait_many` holds `m_cq_mutex` from entry to return, and
takes `m_sq_mutex` besides while it flushes. -/
def step (g : Shared k E C) (l : Local E) (a : Act E) : Option (Shared k E C × Local E) :=
  if g.aborted then none else
  match l, a with
  | .idle, .submitMany submissions => some (g, .submitting submissions)
  | .submitting submissions, .lock =>
    if g.sqMutex then none
    else some ({ g with sqMutex := true, entered := g.entered ++ [submissions] },
      .filling submissions .getSqe)
  | .filling pending phase, .fill a =>
    (Appending.step .synchronized (g.call pending phase) a).map fun c =>
      (g.fill c, .filling c.pending c.phase)
  | .filling _ (.returned _), .unlock => some ({ g with sqMutex := false }, .idle)
  | .idle, .waitMany span => some (g, .entering span)
  | .entering span, .lock =>
    if g.cqMutex then none
    else (WaitMany.step .synchronized g.wait (.enter span)).map fun wait =>
      ({ g with cqMutex := true, wait }, .flushLock)
  | .flushLock, .lock =>
    if g.sqMutex then none else some ({ g with sqMutex := true }, .flushing)
  | .flushing, .submit result =>
    (WaitMany.step .synchronized g.wait (.submitted result)).map fun wait =>
      (g.flush result wait, if Turn.of result = .again then .flushing else .flushed)
  | .flushed, .unlock => some ({ g with sqMutex := false }, afterFlush g.wait)
  | .harvesting, .harvest a =>
    (WaitMany.step .synchronized g.wait a.action).map fun wait =>
      ({ g with wait }, afterFlush wait)
  | .leaving, .unlock => some ({ g with cqMutex := false }, .idle)
  | _, _ => none

/-- A thread takes a step, or the kernel publishes a completion. -/
def machine (ι : Type*) [DecidableEq ι] (k : ℕ) (E C : Type*) :
    Machine (Config ι (Shared k E C) (Local E)) (ι × Act E ⊕ C) where
  step s
    | .inl a => (interleave step).step s a
    | .inr cqe =>
      if s.shared.aborted then none
      else (WaitMany.step .synchronized s.shared.wait (.publish cqe)).map fun wait =>
        { s with shared := { s.shared with wait } }

def initial {ι : Type*} (capacity : ℕ) (slots : BitVec k → C) (buffers : WaitMany.Buffer → C) :
    Config ι (Shared k E C) (Local E) :=
  ⟨⟨false, false, ⟨capacity, []⟩, WaitMany.init slots buffers, false, [], []⟩, fun _ => .idle⟩

inductive Trans (g : Shared k E C) : Local E → Act E → Shared k E C → Local E → Prop where
  | submitMany (submissions : List E) :
      Trans g .idle (.submitMany submissions) g (.submitting submissions)
  | lockSubmit (submissions : List E) (h : g.sqMutex = false) :
      Trans g (.submitting submissions) .lock
        { g with sqMutex := true, entered := g.entered ++ [submissions] }
        (.filling submissions .getSqe)
  | fill (pending : List E) (phase : Appending.Phase) (a : Appending.Act) (c : Appending.Call E)
      (h : Appending.step .synchronized (g.call pending phase) a = some c) :
      Trans g (.filling pending phase) (.fill a) (g.fill c) (.filling c.pending c.phase)
  | unlockSubmit (pending : List E) (r : ResultVoid) :
      Trans g (.filling pending (.returned r)) .unlock { g with sqMutex := false } .idle
  | waitMany (span : List WaitMany.Buffer) : Trans g .idle (.waitMany span) g (.entering span)
  | lockWait (span : List WaitMany.Buffer) (wait : WaitMany.State k C) (h : g.cqMutex = false)
      (hw : WaitMany.step .synchronized g.wait (.enter span) = some wait) :
      Trans g (.entering span) .lock { g with cqMutex := true, wait } .flushLock
  | lockFlush (h : g.sqMutex = false) :
      Trans g .flushLock .lock { g with sqMutex := true } .flushing
  | flush (result : ℤ) (wait : WaitMany.State k C)
      (hw : WaitMany.step .synchronized g.wait (.submitted result) = some wait) :
      Trans g .flushing (.submit result) (g.flush result wait)
        (if Turn.of result = .again then .flushing else .flushed)
  | unlockFlush : Trans g .flushed .unlock { g with sqMutex := false } (afterFlush g.wait)
  | harvest (a : Harvest) (wait : WaitMany.State k C)
      (hw : WaitMany.step .synchronized g.wait a.action = some wait) :
      Trans g .harvesting (.harvest a) { g with wait } (afterFlush wait)
  | unlockWait : Trans g .leaving .unlock { g with cqMutex := false } .idle

theorem step_trans {g g' : Shared k E C} {l l' : Local E} {a : Act E}
    (h : step g l a = some (g', l')) : g.aborted = false ∧ Trans g l a g' l' := by
  unfold step at h
  split at h
  · cases h
  rename_i hg
  refine ⟨Bool.eq_false_iff.mpr hg, ?_⟩
  split at h
  · cases h; exact .submitMany _
  · split at h
    · cases h
    · cases h; exact .lockSubmit _ (Bool.eq_false_iff.mpr ‹_›)
  · obtain ⟨c, hc, hp⟩ := Option.map_eq_some_iff.mp h
    cases hp; exact .fill _ _ _ c hc
  · cases h; exact .unlockSubmit _ _
  · cases h; exact .waitMany _
  · split at h
    · cases h
    · obtain ⟨wait, hw, hp⟩ := Option.map_eq_some_iff.mp h
      cases hp; exact .lockWait _ wait (Bool.eq_false_iff.mpr ‹_›) hw
  · split at h
    · cases h
    · cases h; exact .lockFlush (Bool.eq_false_iff.mpr ‹_›)
  · obtain ⟨wait, hw, hp⟩ := Option.map_eq_some_iff.mp h
    cases hp; exact .flush _ wait hw
  · cases h; exact .unlockFlush
  · obtain ⟨wait, hw, hp⟩ := Option.map_eq_some_iff.mp h
    cases hp; exact .harvest _ wait hw
  · cases h; exact .unlockWait
  · cases h

theorem trans_step {g g' : Shared k E C} {l l' : Local E} {a : Act E} (hg : g.aborted = false)
    (h : Trans g l a g' l') : step g l a = some (g', l') := by
  have hg' : ¬ g.aborted = true := by rw [hg]; exact Bool.false_ne_true
  unfold step
  rw [if_neg hg']
  cases h with
  | lockSubmit submissions h | lockFlush h => simp only [h, Bool.false_eq_true, if_false]
  | fill pending phase a c h => simp only [h, Option.map_some]
  | lockWait span wait h hw => simp only [h, hw, Bool.false_eq_true, if_false, Option.map_some]
  | flush result wait hw | harvest a wait hw => simp only [hw, Option.map_some]
  | _ => rfl

theorem machine_step {ι : Type*} [DecidableEq ι] {s s' : Config ι (Shared k E C) (Local E)}
    {e : ι × Act E ⊕ C} (h : (machine ι k E C).step s e = some s') :
    s.shared.aborted = false ∧
      ((∃ i a g l, e = .inl (i, a) ∧ Trans s.shared (s.threads i) a g l ∧
          s' = ⟨g, Function.update s.threads i l⟩) ∨
        ∃ cqe wait, e = .inr cqe ∧
          WaitMany.step .synchronized s.shared.wait (.publish cqe) = some wait ∧
          s' = { s with shared := { s.shared with wait } }) := by
  cases e with
  | inl a =>
    obtain ⟨g, l, hstep, rfl⟩ := interleave_step.mp h
    obtain ⟨hg, ht⟩ := step_trans hstep
    exact ⟨hg, .inl ⟨a.1, a.2, g, l, rfl, ht, rfl⟩⟩
  | inr cqe =>
    change (if s.shared.aborted then none else _) = some s' at h
    split at h
    · cases h
    · obtain ⟨wait, hw, rfl⟩ := Option.map_eq_some_iff.mp h
      exact ⟨Bool.eq_false_iff.mpr ‹_›, .inr ⟨cqe, wait, rfl, hw, rfl⟩⟩

end BadIo.Uring.Concurrent
