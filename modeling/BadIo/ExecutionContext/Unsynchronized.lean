import BadIo.Fifo

namespace BadIo.UnsynchronizedExecutionContext

/-- The history of a context; activations of `run` are numbered. -/
inductive Event (τ : Type*) where
  | posted (task : τ)
  | started (call : ℕ) (task : τ)
  | returned (call count : ℕ)
  | unwound (call : ℕ)
  deriving DecidableEq

inductive Phase (τ : Type*) where
  | test
  | invoke (f : τ)
  | destroy (f : τ) (thrown : Bool)
  deriving DecidableEq

structure Frame (τ : Type*) where
  call : ℕ
  count : ℕ
  phase : Phase τ
  deriving DecidableEq

/-- The queue, the activations of `run` (innermost first), and the history. -/
structure State (τ : Type*) where
  functionQueue : List τ
  frames : List (Frame τ)
  calls : ℕ
  log : List (Event τ)
  deriving DecidableEq

/-- What a task does is left to the actions: it posts, calls `run` again, returns or throws, and
its callable is destroyed afterwards. -/
inductive Act (τ : Type*) where
  | post (f : τ)
  | run
  | iterate
  | finish
  | throw
  | destroyed
  deriving DecidableEq

variable {τ : Type*}

def State.new : State τ := ⟨[], [], 0, []⟩

/-- Control is with the caller of the context, a task, or the destructor of a callable. -/
def State.inUserCode (s : State τ) : Bool :=
  match s.frames with
  | [] => true
  | ⟨_, _, .test⟩ :: _ => false
  | _ => true

def step (s : State τ) : Act τ → Option (State τ)
  | .post f =>
    if s.inUserCode then
      some { s with functionQueue := s.functionQueue ++ [f], log := s.log ++ [.posted f] }
    else none
  | .run =>
    if s.inUserCode then
      some { s with frames := ⟨s.calls, 0, .test⟩ :: s.frames, calls := s.calls + 1 }
    else none
  | .iterate =>
    match s.frames, s.functionQueue with
    | ⟨call, count, .test⟩ :: rest, [] =>
      some { s with frames := rest, log := s.log ++ [.returned call count] }
    | ⟨call, count, .test⟩ :: rest, f :: queue =>
      some { s with
        functionQueue := queue
        frames := ⟨call, count, .invoke f⟩ :: rest
        log := s.log ++ [.started call f] }
    | _, _ => none
  | .finish =>
    match s.frames with
    | ⟨call, count, .invoke f⟩ :: rest =>
      some { s with frames := ⟨call, count + 1, .destroy f false⟩ :: rest }
    | _ => none
  | .throw =>
    match s.frames with
    | ⟨call, count, .invoke f⟩ :: rest =>
      some { s with frames := ⟨call, count, .destroy f true⟩ :: rest }
    | _ => none
  | .destroyed =>
    match s.frames with
    | ⟨call, count, .destroy _ false⟩ :: rest =>
      some { s with frames := ⟨call, count, .test⟩ :: rest }
    | ⟨call, _, .destroy _ true⟩ :: rest =>
      some { s with frames := rest, log := s.log ++ [.unwound call] }
    | _ => none

def machine (τ : Type*) : Machine (State τ) (Act τ) := ⟨step⟩

def Event.post? : Event τ → Option τ
  | .posted f => some f
  | _ => none

def Event.start? : Event τ → Option τ
  | .started _ f => some f
  | _ => none

def Event.isStartBy (call : ℕ) : Event τ → Bool
  | .started c _ => c == call
  | _ => false

def posted (log : List (Event τ)) : List τ := log.filterMap Event.post?

def started (log : List (Event τ)) : List τ := log.filterMap Event.start?

/-- How many tasks the activation `call` itself has started. -/
def startedBy (call : ℕ) (log : List (Event τ)) : ℕ := log.countP (Event.isStartBy call)

@[simp] theorem posted_snoc (log : List (Event τ)) (e : Event τ) :
    posted (log ++ [e]) = posted log ++ e.post?.toList := by
  cases e <;> simp [posted, Event.post?]

@[simp] theorem started_snoc (log : List (Event τ)) (e : Event τ) :
    started (log ++ [e]) = started log ++ e.start?.toList := by
  cases e <;> simp [started, Event.start?]

@[simp] theorem startedBy_snoc (call : ℕ) (log : List (Event τ)) (e : Event τ) :
    startedBy call (log ++ [e]) = startedBy call log + if e.isStartBy call then 1 else 0 := by
  simp [startedBy, List.countP_cons]

inductive Trans (s : State τ) : Act τ → State τ → Prop where
  | post (f : τ) : Trans s (.post f)
      { s with functionQueue := s.functionQueue ++ [f], log := s.log ++ [.posted f] }
  | run : Trans s .run
      { s with frames := ⟨s.calls, 0, .test⟩ :: s.frames, calls := s.calls + 1 }
  | leave {call count : ℕ} {rest : List (Frame τ)}
      (hf : s.frames = ⟨call, count, .test⟩ :: rest) (hq : s.functionQueue = []) :
      Trans s .iterate { s with frames := rest, log := s.log ++ [.returned call count] }
  | start {call count : ℕ} {rest : List (Frame τ)} {f : τ} {queue : List τ}
      (hf : s.frames = ⟨call, count, .test⟩ :: rest) (hq : s.functionQueue = f :: queue) :
      Trans s .iterate { s with
        functionQueue := queue
        frames := ⟨call, count, .invoke f⟩ :: rest
        log := s.log ++ [.started call f] }
  | finish {call count : ℕ} {rest : List (Frame τ)} {f : τ}
      (hf : s.frames = ⟨call, count, .invoke f⟩ :: rest) :
      Trans s .finish { s with frames := ⟨call, count + 1, .destroy f false⟩ :: rest }
  | throw {call count : ℕ} {rest : List (Frame τ)} {f : τ}
      (hf : s.frames = ⟨call, count, .invoke f⟩ :: rest) :
      Trans s .throw { s with frames := ⟨call, count, .destroy f true⟩ :: rest }
  | again {call count : ℕ} {rest : List (Frame τ)} {f : τ}
      (hf : s.frames = ⟨call, count, .destroy f false⟩ :: rest) :
      Trans s .destroyed { s with frames := ⟨call, count, .test⟩ :: rest }
  | unwind {call count : ℕ} {rest : List (Frame τ)} {f : τ}
      (hf : s.frames = ⟨call, count, .destroy f true⟩ :: rest) :
      Trans s .destroyed { s with frames := rest, log := s.log ++ [.unwound call] }

theorem step_trans {s s' : State τ} {a : Act τ} (h : (machine τ).step s a = some s') :
    Trans s a s' := by
  change step s a = some s' at h
  cases a with
  | post f =>
    simp only [step, Option.ite_none_right_eq_some, Option.some.injEq] at h
    exact h.2 ▸ .post f
  | run =>
    simp only [step, Option.ite_none_right_eq_some, Option.some.injEq] at h
    exact h.2 ▸ .run
  | iterate =>
    simp only [step] at h
    split at h
    · exact Option.some.inj h ▸ .leave ‹_› ‹_›
    · exact Option.some.inj h ▸ .start ‹_› ‹_›
    · cases h
  | finish =>
    simp only [step] at h
    split at h
    · exact Option.some.inj h ▸ .finish ‹_›
    · cases h
  | throw =>
    simp only [step] at h
    split at h
    · exact Option.some.inj h ▸ .throw ‹_›
    · cases h
  | destroyed =>
    simp only [step] at h
    split at h
    · exact Option.some.inj h ▸ .again ‹_›
    · exact Option.some.inj h ▸ .unwind ‹_›
    · cases h

structure Records (s : State τ) (h : Fifo τ) : Prop where
  posted : posted s.log = h.added
  started : started s.log = h.taken
  queue : s.functionQueue = h.waiting

def label (s : State τ) : Act τ → List (Fifo.Act τ)
  | .post f => [.add f]
  | .iterate => if s.functionQueue.isEmpty then [] else [.take]
  | _ => []

theorem records_frames {s : State τ} {h : Fifo τ} (hr : Records s h) (frames : List (Frame τ))
    (calls : ℕ) : Records { s with frames := frames, calls := calls } h :=
  ⟨hr.posted, hr.started, hr.queue⟩

theorem fifo_simulates : (Fifo.machine τ).Simulates Records label (machine τ) := by
  intro s h a s' hr hs
  cases step_trans hs with
  | post f =>
    refine ⟨h.add f, Fifo.run_add h f, ?_, ?_, ?_⟩
    · simp [Event.post?, hr.posted, Fifo.add]
    · simp [Event.start?, hr.started, Fifo.add]
    · simp [hr.queue, Fifo.add]
  | leave hf hq =>
    refine ⟨h, by simp [label, hq], ?_, ?_, hr.queue⟩
    · simpa [Event.post?] using hr.posted
    · simpa [Event.start?] using hr.started
  | start hf hq =>
    have hw := hr.queue.symm.trans hq
    refine ⟨h.take _ _ hw, by simpa [label, hq] using Fifo.run_take h hw, ?_, ?_, rfl⟩
    · simpa [Event.post?, Fifo.take] using hr.posted
    · simp [Event.start?, hr.started, Fifo.take]
  | unwind hf =>
    refine ⟨h, rfl, ?_, ?_, hr.queue⟩
    · simpa [Event.post?] using hr.posted
    · simpa [Event.start?] using hr.started
  | _ => exact ⟨h, rfl, records_frames hr _ _⟩

theorem posted_eq_started_append {acts : List (Act τ)} {s : State τ}
    (h : (machine τ).run .new acts = some s) :
    posted s.log = started s.log ++ s.functionQueue := by
  -- tasks are started in the order in which they were posted, and the rest is queued
  obtain ⟨_, t, -, hr⟩ := fifo_simulates.run (t := .start []) ⟨rfl, rfl, rfl⟩ h
  rw [hr.posted, hr.started, hr.queue, t.order]

def Phase.uncounted : Phase τ → ℕ
  | .test => 0
  | .invoke _ => 1
  | .destroy _ thrown => if thrown then 1 else 0

/-- Every activation counts the tasks it starts itself. -/
structure Counted (s : State τ) : Prop where
  below : ∀ f ∈ s.frames, f.call < s.calls
  distinct : (s.frames.map Frame.call).Nodup
  counts : ∀ f ∈ s.frames, startedBy f.call s.log = f.count + f.phase.uncounted
  unused : ∀ c, s.calls ≤ c → startedBy c s.log = 0

theorem new_counted : Counted (.new : State τ) where
  below _ hf := absurd hf List.not_mem_nil
  distinct := List.nodup_nil
  counts _ hf := absurd hf List.not_mem_nil
  unused _ _ := rfl

theorem counted_head {s : State τ} {f g : Frame τ} {rest : List (Frame τ)} (hs : Counted s)
    (hf : s.frames = f :: rest) (hc : g.call = f.call)
    (hu : g.count + g.phase.uncounted = f.count + f.phase.uncounted) :
    Counted { s with frames := g :: rest } := by
  obtain ⟨hb, hd, hn, hz⟩ := hs
  rw [hf] at hb hd hn
  refine ⟨?_, ?_, ?_, hz⟩
  · intro k hk
    rcases List.mem_cons.mp hk with rfl | hk
    · exact hc ▸ hb f List.mem_cons_self
    · exact hb k (List.mem_cons_of_mem f hk)
  · simpa [hc] using hd
  · intro k hk
    rcases List.mem_cons.mp hk with rfl | hk
    · rw [hc, hu]; exact hn f List.mem_cons_self
    · exact hn k (List.mem_cons_of_mem f hk)

theorem counted_pop {s : State τ} {f : Frame τ} {rest : List (Frame τ)} {e : Event τ}
    (hs : Counted s) (hf : s.frames = f :: rest) (he : ∀ c, e.isStartBy c = false) :
    Counted { s with frames := rest, log := s.log ++ [e] } := by
  obtain ⟨hb, hd, hn, hz⟩ := hs
  rw [hf] at hb hd hn
  refine ⟨fun k hk => hb k (List.mem_cons_of_mem f hk), (List.nodup_cons.mp hd).2, ?_, ?_⟩
  · intro k hk
    simpa [he] using hn k (List.mem_cons_of_mem f hk)
  · intro c hc
    simpa [he] using hz c hc

theorem trans_counted {s s' : State τ} {a : Act τ} (h : Trans s a s') (hs : Counted s) :
    Counted s' := by
  cases h with
  | post f =>
    refine ⟨hs.below, hs.distinct, ?_, ?_⟩
    · simpa [Event.isStartBy] using hs.counts
    · simpa [Event.isStartBy] using hs.unused
  | run =>
    refine ⟨?_, ?_, ?_, fun c hc => hs.unused c (by simp only at hc; omega)⟩
    · intro f hf
      rcases List.mem_cons.mp hf with rfl | hf
      · exact Nat.lt_succ_self s.calls
      · exact Nat.lt_succ_of_lt (hs.below f hf)
    · -- the new activation has a number that no frame has
      refine List.nodup_cons.mpr ⟨?_, hs.distinct⟩
      intro hm
      obtain ⟨f, hf, hfc⟩ := List.mem_map.mp hm
      exact absurd (hs.below f hf) (by simp [hfc])
    · intro f hf
      rcases List.mem_cons.mp hf with rfl | hf
      · exact hs.unused s.calls (Nat.le_refl _)
      · exact hs.counts f hf
  | leave hf hq => exact counted_pop hs hf fun _ => rfl
  | unwind hf => exact counted_pop hs hf fun _ => rfl
  | start hf hq =>
    obtain ⟨hb, hd, hn, hz⟩ := hs
    rw [hf] at hb hd hn
    -- the innermost activation has started one task more, which it has yet to count
    have hlt := hb _ List.mem_cons_self
    have hhead := hn _ List.mem_cons_self
    refine ⟨?_, hd, ?_, ?_⟩
    · intro k hk
      rcases List.mem_cons.mp hk with rfl | hk
      · exact hlt
      · exact hb k (List.mem_cons_of_mem _ hk)
    · intro k hk
      rcases List.mem_cons.mp hk with rfl | hk
      · simpa [Event.isStartBy, Phase.uncounted] using hhead
      · have hne := (List.nodup_cons.mp hd).1
        have hkc : k.call ∈ _ := List.mem_map_of_mem (f := Frame.call) hk
        have h0 := hn k (List.mem_cons_of_mem _ hk)
        simp [Event.isStartBy, h0]
        rintro rfl
        exact hne hkc
    · intro c hc
      have h0 := hz c hc
      simp only at hc hlt
      simp [Event.isStartBy, h0]
      omega
  | finish hf | throw hf | again hf =>
    exact counted_head hs hf rfl (by simp [Phase.uncounted])

theorem run_counted {acts : List (Act τ)} {s : State τ} (h : (machine τ).run .new acts = some s) :
    Counted s :=
  Machine.invariant_of_step (fun _ _ _ hs hstep => trans_counted (step_trans hstep) hs)
    new_counted h

theorem returned_spec {s s' : State τ} {a : Act τ} (hs : Counted s) (h : Trans s a s')
    {call n : ℕ} (hlog : s'.log = s.log ++ [.returned call n]) :
    s'.functionQueue = [] ∧ n = startedBy call s'.log := by
  -- an activation that returns has emptied the queue and counted its own tasks
  cases h with
  | leave hf hq =>
    simp only [List.append_cancel_left_eq, List.cons.injEq, Event.returned.injEq, and_true] at hlog
    obtain ⟨rfl, rfl⟩ := hlog
    have hn := hs.counts _ (hf ▸ List.mem_cons_self)
    exact ⟨hq, by simpa [Event.isStartBy, Phase.uncounted] using hn.symm⟩
  | _ => simp at hlog

theorem unwound_spec {s s' : State τ} {a : Act τ} (h : Trans s a s') {call : ℕ}
    (hlog : s'.log = s.log ++ [.unwound call]) : s'.functionQueue = s.functionQueue := by
  -- an exception that leaves an activation does not touch the queue
  cases h with
  | unwind hf => rfl
  | _ => simp at hlog

/-- At every moment the tasks posted are the tasks started followed by the queue.  An
activation of `run` that returns leaves the queue empty and returns the number of tasks
it started itself; one that an exception leaves has taken exactly the started tasks. -/
theorem run_once_in_order {acts : List (Act τ)} {s : State τ}
    (h : (machine τ).run .new acts = some s) :
    posted s.log = started s.log ++ s.functionQueue ∧
      ∀ a s', (machine τ).step s a = some s' →
        (∀ call n, s'.log = s.log ++ [.returned call n] →
          s'.functionQueue = [] ∧ n = startedBy call s'.log) ∧
        (∀ call, s'.log = s.log ++ [.unwound call] →
          s'.functionQueue = s.functionQueue ∧
            s'.functionQueue = (posted s'.log).drop (started s'.log).length) := by
  refine ⟨posted_eq_started_append h, fun a s' hs => ⟨?_, ?_⟩⟩
  · intro call n hlog
    exact returned_spec (run_counted h) (step_trans hs) hlog
  · intro call hlog
    have hr : (machine τ).run .new (acts ++ [a]) = some s' := by
      rw [Machine.run_append, h, Option.bind_some, Machine.run_cons, hs]
      rfl
    refine ⟨unwound_spec (step_trans hs) hlog, ?_⟩
    rw [posted_eq_started_append hr, List.drop_left]

/-- Task 1 posts task 3 and calls `run`, which task 2 leaves by an exception. -/
def throwing : List (Act ℕ) :=
  [.post 1, .post 2, .run, .iterate, .post 3, .run, .iterate, .throw]

/-- Task 1 catches the exception and returns, and task 3 is called. -/
def nestedThrow : List (Act ℕ) :=
  throwing ++ [.destroyed, .finish, .destroyed, .iterate, .finish, .destroyed]

/-- The inner activation unwinds and leaves task 3; the outer one returns 2. -/
theorem run_once_in_order_nestedThrow :
    (∃ s s', (machine ℕ).run .new throwing = some s ∧
      (machine ℕ).step s .destroyed = some s' ∧ s'.log = s.log ++ [.unwound 1] ∧
      s'.functionQueue = [3] ∧ s'.functionQueue = s.functionQueue ∧
      s'.functionQueue = (posted s'.log).drop (started s'.log).length) ∧
    ∃ s s', (machine ℕ).run .new nestedThrow = some s ∧
      started s.log = [1, 2, 3] ∧ posted s.log = started s.log ++ s.functionQueue ∧
      (machine ℕ).step s .iterate = some s' ∧ s'.log = s.log ++ [.returned 0 2] ∧
      s'.functionQueue = [] ∧ 2 = startedBy 0 s'.log := by
  constructor
  · obtain ⟨s, s', h, hs, hlog, hqueue⟩ : ∃ s s', (machine ℕ).run .new throwing = some s ∧
        (machine ℕ).step s .destroyed = some s' ∧ s'.log = s.log ++ [.unwound 1] ∧
        s'.functionQueue = [3] := ⟨_, _, rfl, rfl, rfl, rfl⟩
    exact ⟨s, s', h, hs, hlog, hqueue, ((run_once_in_order h).2 .destroyed s' hs).2 1 hlog⟩
  · obtain ⟨s, s', h, hstarted, hs, hlog⟩ : ∃ s s', (machine ℕ).run .new nestedThrow = some s ∧
        started s.log = [1, 2, 3] ∧ (machine ℕ).step s .iterate = some s' ∧
        s'.log = s.log ++ [.returned 0 2] := ⟨_, _, rfl, rfl, rfl, rfl⟩
    exact ⟨s, s', h, hstarted, (run_once_in_order h).1, hs, hlog,
      ((run_once_in_order h).2 .iterate s' hs).1 0 2 hlog⟩

end BadIo.UnsynchronizedExecutionContext
