import Mathlib.Data.List.Range
import Mathlib.Data.List.Perm.Basic
import BadIo.ExecutionContext.Unsynchronized
import BadIo.UniqueFunction.Elements

namespace BadIo.ExecutionContext.Storage

open UnsynchronizedExecutionContext (posted started Frame Phase)
open UniqueFunction (Accounted Callable Name Op Placed Placement Table create)

variable {V F : Type}

/-- The context, and the operations on `unique_function` objects that it has carried out. -/
structure State (V F : Type) where
  context : UnsynchronizedExecutionContext.State (ℕ × Callable V F)
  operations : List (Op (Name ℕ) V F)

def State.new : State V F := ⟨.new, []⟩

inductive Act (V F : Type) where
  | post (c : Callable V F)
  | run
  | iterate
  | finish (after : V)
  | throw (after : V)
  | destroyed
  deriving DecidableEq

def State.posts (s : State V F) : ℕ := (posted s.context.log).length

def label (s : State V F) : Act V F → UnsynchronizedExecutionContext.Act (ℕ × Callable V F)
  | .post c => .post (s.posts, c)
  | .run => .run
  | .iterate => .iterate
  | .finish _ => .finish
  | .throw _ => .throw
  | .destroyed => .destroyed

def popFront : List (ℕ × Callable V F) → List (Op (Name ℕ) V F)
  | (k, _) :: _ => [.moveConstruct (.f k) (.element k), .destroy (.element k)]
  | [] => []

def callLocal (after : V) : List (Frame (ℕ × Callable V F)) → List (Op (Name ℕ) V F)
  | ⟨_, _, .invoke (k, _)⟩ :: _ => [.call (.f k) after]
  | _ => []

def destroyLocal : List (Frame (ℕ × Callable V F)) → List (Op (Name ℕ) V F)
  | ⟨_, _, .destroy (k, _) _⟩ :: _ => [.destroy (.f k)]
  | _ => []

def operations (s : State V F) : Act V F → List (Op (Name ℕ) V F)
  | .post c => [create (.element s.posts) c]
  | .run => []
  | .iterate => popFront s.context.functionQueue
  | .finish after => callLocal after s.context.frames
  | .throw after => callLocal after s.context.frames
  | .destroyed => destroyLocal s.context.frames

def step (s : State V F) (a : Act V F) : Option (State V F) :=
  (UnsynchronizedExecutionContext.step s.context (label s a)).map fun context =>
    ⟨context, s.operations ++ operations s a⟩

def machine (V F : Type) : Machine (State V F) (Act V F) := ⟨step⟩

def Phase.number? : Phase (ℕ × Callable V F) → Option ℕ
  | .test => none
  | .invoke p => some p.1
  | .destroy p _ => some p.1

def held (frames : List (Frame (ℕ × Callable V F))) : List ℕ :=
  frames.filterMap fun f => Phase.number? f.phase

def Phase.running? : Phase (ℕ × Callable V F) → Option (Callable V F)
  | .invoke p => some p.2
  | _ => none

def running (frames : List (Frame (ℕ × Callable V F))) : List (Callable V F) :=
  frames.filterMap fun f => Phase.running? f.phase

structure Numbered (e : UnsynchronizedExecutionContext.State (ℕ × Callable V F)) : Prop where
  reached : (UnsynchronizedExecutionContext.machine (ℕ × Callable V F)).Reachable .new e
  numbers : (posted e.log).map Prod.fst = List.range (posted e.log).length
  distinct : (held e.frames).Nodup
  begun : ∀ k ∈ held e.frames, k ∈ (started e.log).map Prod.fst

section Numbers

variable {e e' : UnsynchronizedExecutionContext.State (ℕ × Callable V F)}

theorem new_numbered :
    Numbered (.new : UnsynchronizedExecutionContext.State (ℕ × Callable V F)) where
  reached := .refl _ _
  numbers := rfl
  distinct := List.nodup_nil
  begun _ h := absurd h List.not_mem_nil

theorem Numbered.numbers_eq (h : Numbered e) :
    (started e.log).map Prod.fst ++ e.functionQueue.map Prod.fst =
      List.range (posted e.log).length := by
  obtain ⟨acts, hrun⟩ := h.reached
  rw [← List.map_append, ← UnsynchronizedExecutionContext.posted_eq_started_append hrun, h.numbers]

theorem Numbered.nodup (h : Numbered e) :
    ((started e.log).map Prod.fst ++ e.functionQueue.map Prod.fst).Nodup := by
  rw [h.numbers_eq]
  exact List.nodup_range

theorem Numbered.next_not_mem (h : Numbered e) :
    (posted e.log).length ∉ e.functionQueue.map Prod.fst := by
  intro hmem
  have hlt := List.mem_append_right ((started e.log).map Prod.fst) hmem
  rw [h.numbers_eq, List.mem_range] at hlt
  exact Nat.lt_irrefl _ hlt

theorem Numbered.queued_not_held (h : Numbered e) {k : ℕ}
    (hk : k ∈ e.functionQueue.map Prod.fst) : k ∉ held e.frames := by
  intro hheld
  exact (List.nodup_append.mp h.nodup).2.2 k (h.begun k hheld) k hk rfl

theorem Numbered.frames (h : Numbered e) {frames : List (Frame (ℕ × Callable V F))}
    {log : List (UnsynchronizedExecutionContext.Event (ℕ × Callable V F))} {calls : ℕ}
    (hreached : (UnsynchronizedExecutionContext.machine (ℕ × Callable V F)).Reachable .new
      { e with frames, log, calls })
    (hposted : posted log = posted e.log) (hstarted : started log = started e.log)
    (hsub : (held frames).Sublist (held e.frames)) : Numbered { e with frames, log, calls } where
  reached := hreached
  numbers := by
    change (posted log).map Prod.fst = List.range (posted log).length
    rw [hposted, h.numbers]
  distinct := h.distinct.sublist hsub
  begun k hk := by
    change k ∈ (started log).map Prod.fst
    rw [hstarted]
    exact h.begun k (hsub.subset hk)

theorem held_cons (f : Frame (ℕ × Callable V F)) (frames : List (Frame (ℕ × Callable V F))) :
    held (f :: frames) = (Phase.number? f.phase).toList ++ held frames := by
  unfold held
  cases hn : Phase.number? f.phase <;> simp [hn]

theorem running_cons (f : Frame (ℕ × Callable V F)) (frames : List (Frame (ℕ × Callable V F))) :
    running (f :: frames) = (Phase.running? f.phase).toList ++ running frames := by
  unfold running
  cases hn : Phase.running? f.phase <;> simp [hn]

theorem step_numbered {a : UnsynchronizedExecutionContext.Act (ℕ × Callable V F)}
    (h : Numbered e) (ha : ∀ p, a = .post p → p.1 = (posted e.log).length)
    (hstep : (UnsynchronizedExecutionContext.machine (ℕ × Callable V F)).step e a = some e') :
    Numbered e' := by
  have hreached := h.reached.tail hstep
  cases UnsynchronizedExecutionContext.step_trans hstep with
  | post p =>
    refine ⟨hreached, ?_, h.distinct, ?_⟩
    · change (posted (e.log ++ [.posted p])).map Prod.fst = List.range _
      simp [UnsynchronizedExecutionContext.Event.post?, h.numbers, ha p rfl, List.range_succ]
    · simpa [UnsynchronizedExecutionContext.Event.start?] using h.begun
  | run =>
    refine h.frames hreached rfl rfl ?_
    rw [held_cons]
    exact .refl _
  | leave hf hq =>
    refine h.frames hreached ?_ ?_ ?_
    · simp [UnsynchronizedExecutionContext.Event.post?]
    · simp [UnsynchronizedExecutionContext.Event.start?]
    · rw [hf, held_cons]
      exact List.sublist_append_right _ _
  | @start call count rest p queue hf hq =>
    have hnot := h.queued_not_held (k := p.1) (by rw [hq]; exact List.mem_cons_self)
    rw [hf, held_cons] at hnot
    refine ⟨hreached, ?_, ?_, ?_⟩
    · change (posted (e.log ++ [.started call p])).map Prod.fst = List.range _
      simp [UnsynchronizedExecutionContext.Event.post?, h.numbers]
    · rw [held_cons]
      have hd := h.distinct
      rw [hf, held_cons] at hd
      exact List.nodup_cons.mpr ⟨hnot, hd⟩
    · intro k hk
      rw [held_cons] at hk
      have hb := h.begun k
      rw [hf, held_cons] at hb
      simp only [UnsynchronizedExecutionContext.started_snoc, List.map_append, List.mem_append]
      rcases List.mem_cons.mp hk with rfl | hk
      · exact .inr (by simp [UnsynchronizedExecutionContext.Event.start?])
      · exact .inl (hb hk)
  | finish hf | throw hf | again hf =>
    refine h.frames hreached rfl rfl ?_
    rw [hf, held_cons, held_cons]
    simp [Phase.number?]
  | unwind hf =>
    refine h.frames hreached ?_ ?_ ?_
    · simp [UnsynchronizedExecutionContext.Event.post?]
    · simp [UnsynchronizedExecutionContext.Event.start?]
    · rw [hf, held_cons]
      exact List.sublist_append_right _ _

end Numbers

/-- The variable `f` of a frame holds the task, until it has been called, and then what the
call has left of it. -/
inductive Kept (t : Table (Name ℕ) V F) : Phase (ℕ × Callable V F) → Prop where
  | test : Kept t .test
  | invoke (k : ℕ) (c : Callable V F) (h : t.entries (.f k) = some (some c)) :
      Kept t (.invoke (k, c))
  | destroy (k : ℕ) (c : Callable V F) (thrown : Bool) (after : V)
      (h : t.entries (.f k) = some (some (c.after after))) : Kept t (.destroy (k, c) thrown)

/-- There are the elements of the queue and the variables of the frames, and no other objects;
every task that has been started has been called, or is being called. -/
structure Stores (e : UnsynchronizedExecutionContext.State (ℕ × Callable V F))
    (t : Table (Name ℕ) V F) : Prop where
  element : ∀ p ∈ e.functionQueue, t.entries (.element p.1) = some (some p.2)
  noElement : ∀ k, k ∉ e.functionQueue.map Prod.fst → t.entries (.element k) = none
  locals : ∀ f ∈ e.frames, Kept t f.phase
  noLocal : ∀ k, k ∉ held e.frames → t.entries (.f k) = none
  history : ∃ ran, t.history = ran.map .ran ∧
    ((started e.log).map Prod.snd).Perm (ran ++ running e.frames)

section Objects

variable {e : UnsynchronizedExecutionContext.State (ℕ × Callable V F)} {t t' : Table (Name ℕ) V F}

theorem new_stores :
    Stores (.new : UnsynchronizedExecutionContext.State (ℕ × Callable V F)) Table.init where
  element _ h := absurd h List.not_mem_nil
  noElement _ _ := rfl
  locals _ h := absurd h List.not_mem_nil
  noLocal _ _ := rfl
  history := ⟨[], rfl, .refl _⟩

theorem Kept.congr {phase : Phase (ℕ × Callable V F)} (h : Kept t phase)
    (heq : ∀ k, Phase.number? phase = some k → t'.entries (.f k) = t.entries (.f k)) :
    Kept t' phase := by
  cases h with
  | test => exact .test
  | invoke k c h => exact .invoke k c ((heq k rfl).trans h)
  | destroy k c thrown after h => exact .destroy k c thrown after ((heq k rfl).trans h)

theorem number_mem_held {f : Frame (ℕ × Callable V F)}
    {frames : List (Frame (ℕ × Callable V F))} (hf : f ∈ frames) {k : ℕ}
    (hk : Phase.number? f.phase = some k) : k ∈ held frames :=
  List.mem_filterMap.mpr ⟨f, hf, hk⟩

theorem Stores.locals_rest (h : Stores e t) (hn : Numbered e) {f : Frame (ℕ × Callable V F)}
    {rest : List (Frame (ℕ × Callable V F))} {k : ℕ} (hf : e.frames = f :: rest)
    (hk : Phase.number? f.phase = some k)
    (heq : ∀ j, j ≠ k → t'.entries (.f j) = t.entries (.f j)) :
    ∀ g ∈ rest, Kept t' g.phase := by
  -- the frames below the innermost one do not see what happens to its variable
  intro g hg
  have hd := hn.distinct
  rw [hf, held_cons, hk] at hd
  refine (h.locals g (hf ▸ List.mem_cons_of_mem f hg)).congr fun j hj => heq j ?_
  rintro rfl
  exact (List.nodup_cons.mp hd).1 (number_mem_held hg hj)

theorem stores_post (hn : Numbered e) (h : Stores e t) (c : Callable V F) :
    ∃ t', Table.machine.run t [create (.element (posted e.log).length) c] = some t' ∧
      Stores { e with
        functionQueue := e.functionQueue ++ [((posted e.log).length, c)]
        log := e.log ++ [.posted ((posted e.log).length, c)] } t' := by
  have hnext := hn.next_not_mem
  refine ⟨t.set (.element (posted e.log).length) (some (some c)), ?_, ?_, ?_, ?_, ?_, ?_⟩
  · rw [Table.run_one, Table.step_create]
    exact Table.add_eq_some.mpr ⟨h.noElement _ hnext, rfl⟩
  · intro p hp
    rcases List.mem_append.mp hp with hp | hp
    · rw [Table.set_element_ne]
      · exact h.element p hp
      · intro heq
        exact hnext (heq ▸ List.mem_map_of_mem hp)
    · cases List.mem_singleton.mp hp
      exact Table.set_self _ _ _
  · intro k hk
    simp only [List.map_append, List.map_cons, List.map_nil, List.mem_append, List.mem_singleton,
      not_or] at hk
    rw [Table.set_element_ne _ _ hk.2]
    exact h.noElement k hk.1
  · exact fun f hf => (h.locals f hf).congr fun k _ => Table.set_element_f _ _
  · exact fun k hk => (Table.set_element_f _ _).trans (h.noLocal k hk)
  · change ∃ ran, t.history = _ ∧ _
    simpa [UnsynchronizedExecutionContext.Event.start?] using h.history

theorem stores_start (hn : Numbered e) (h : Stores e t) {call count : ℕ}
    {rest : List (Frame (ℕ × Callable V F))} {p : ℕ × Callable V F}
    {queue : List (ℕ × Callable V F)} (hf : e.frames = ⟨call, count, .test⟩ :: rest)
    (hq : e.functionQueue = p :: queue) :
    ∃ t', Table.machine.run t (popFront e.functionQueue) = some t' ∧
      Stores { e with
        functionQueue := queue
        frames := ⟨call, count, .invoke p⟩ :: rest
        log := e.log ++ [.started call p] } t' := by
  obtain ⟨k, c⟩ := p
  have hk : k ∉ held e.frames := hn.queued_not_held (by rw [hq]; exact List.mem_cons_self)
  have hlocal := h.noLocal k hk
  have helement : t.entries (.element k) = some (some c) :=
    h.element (k, c) (by rw [hq]; exact List.mem_cons_self)
  -- the numbers of the other elements are different
  have hnodup := (List.nodup_append.mp hn.nodup).2.1
  rw [hq, List.map_cons] at hnodup
  have hfresh : k ∉ queue.map Prod.fst := (List.nodup_cons.mp hnodup).1
  rw [hf, held_cons] at hk
  refine ⟨(t.set (.f k) (some (some c))).set (.element k) none, ?_, ?_, ?_, ?_, ?_, ?_⟩
  · rw [hq, popFront]
    exact Table.run_move hlocal helement
  · intro q hqueue
    have hmem : q.1 ∈ queue.map Prod.fst := List.mem_map_of_mem hqueue
    have hqk : q.1 ≠ k := fun heq => hfresh (heq ▸ hmem)
    rw [Table.set_element_ne _ _ hqk, Table.set_f_element]
    exact h.element q (hq ▸ List.mem_cons_of_mem _ hqueue)
  · intro j hj
    by_cases hjk : j = k
    · subst hjk
      exact Table.set_self _ _ _
    · rw [Table.set_element_ne _ _ hjk, Table.set_f_element]
      refine h.noElement j ?_
      rw [hq, List.map_cons, List.mem_cons]
      exact fun hmem => hmem.elim hjk hj
  · intro f hmem
    rcases List.mem_cons.mp hmem with rfl | hmem
    · refine .invoke k c ?_
      rw [Table.set_element_f, Table.set_self]
    · refine (h.locals f (hf ▸ List.mem_cons_of_mem _ hmem)).congr fun j hj => ?_
      have hjk : j ≠ k := fun heq => hk (heq ▸ number_mem_held hmem hj)
      rw [Table.set_element_f, Table.set_f_ne _ _ hjk]
  · intro j hj
    rw [held_cons] at hj
    have hjk : j ≠ k := fun heq => hj (heq ▸ List.mem_cons_self)
    rw [Table.set_element_f, Table.set_f_ne _ _ hjk]
    refine h.noLocal j ?_
    rw [hf, held_cons]
    exact fun hmem => hj (List.mem_append_right _ hmem)
  · obtain ⟨ran, hran, hperm⟩ := h.history
    refine ⟨ran, hran, ?_⟩
    rw [hf, running_cons] at hperm
    simp only [UnsynchronizedExecutionContext.started_snoc, List.map_append, running_cons]
    refine (hperm.append_right _).trans ?_
    rw [List.append_assoc]
    exact List.perm_append_comm.append_left ran

theorem stores_call (hn : Numbered e) (h : Stores e t) {call count count' : ℕ}
    {rest : List (Frame (ℕ × Callable V F))} {p : ℕ × Callable V F}
    (hf : e.frames = ⟨call, count, .invoke p⟩ :: rest) (after : V) (thrown : Bool) :
    ∃ t', Table.machine.run t (callLocal after e.frames) = some t' ∧
      Stores { e with frames := ⟨call, count', .destroy p thrown⟩ :: rest } t' := by
  obtain ⟨k, c⟩ := p
  have hentry : t.entries (.f k) = some (some c) := by
    have hkept := h.locals ⟨call, count, .invoke (k, c)⟩ (by rw [hf]; exact List.mem_cons_self)
    cases hkept with
    | invoke _ _ hk => exact hk
  have hother (j : ℕ) (hj : j ≠ k) :
      (t.set (.f k) (some (some (c.after after)))).entries (.f j) = t.entries (.f j) :=
    Table.set_f_ne _ _ hj
  have helement (j : ℕ) :
      (t.set (.f k) (some (some (c.after after)))).entries (.element j) =
        t.entries (.element j) := Table.set_f_element _ _
  refine ⟨(t.set (.f k) (some (some (c.after after)))).record (.ran c), ?_, ?_, ?_, ?_, ?_, ?_⟩
  · rw [hf, callLocal, Table.run_one, Table.step, hentry]
  · exact fun q hq => (helement _).trans (h.element q hq)
  · exact fun j hj => (helement _).trans (h.noElement j hj)
  · intro f hmem
    rcases List.mem_cons.mp hmem with rfl | hmem
    · exact .destroy k c thrown after (Table.set_self _ _ _)
    · exact (h.locals_rest hn hf rfl hother f hmem).congr fun _ _ => rfl
  · intro j hj
    rw [held_cons] at hj
    have hjk : j ≠ k := fun heq => hj (heq ▸ List.mem_cons_self)
    refine (hother j hjk).trans (h.noLocal j ?_)
    rw [hf, held_cons]
    exact hj
  · obtain ⟨ran, hran, hperm⟩ := h.history
    refine ⟨ran ++ [c], ?_, ?_⟩
    · change t.history ++ [.ran c] = _
      rw [hran, List.map_append]
      rfl
    · rw [hf, running_cons] at hperm
      rw [running_cons, List.append_assoc]
      exact hperm

theorem stores_destroy (hn : Numbered e) (h : Stores e t) {call count : ℕ}
    {rest frames : List (Frame (ℕ × Callable V F))} {p : ℕ × Callable V F} {thrown : Bool}
    {log : List (UnsynchronizedExecutionContext.Event (ℕ × Callable V F))}
    (hf : e.frames = ⟨call, count, .destroy p thrown⟩ :: rest)
    (hframes : ∀ f ∈ frames, f.phase = .test ∨ f ∈ rest) (hheld : held frames = held rest)
    (hrunning : running frames = running rest) (hlog : started log = started e.log) :
    ∃ t', Table.machine.run t (destroyLocal e.frames) = some t' ∧
      Stores { e with frames, log } t' := by
  obtain ⟨k, c⟩ := p
  have hentry : ∃ x, t.entries (.f k) = some x := by
    have hkept := h.locals ⟨call, count, .destroy (k, c) thrown⟩
      (by rw [hf]; exact List.mem_cons_self)
    cases hkept with
    | destroy _ _ _ after hk => exact ⟨_, hk⟩
  obtain ⟨x, hentry⟩ := hentry
  refine ⟨t.set (.f k) none, ?_, ?_, ?_, ?_, ?_, ?_⟩
  · rw [hf, destroyLocal, Table.run_one, Table.step, hentry]
  · exact fun q hq => (Table.set_f_element _ _).trans (h.element q hq)
  · exact fun j hj => (Table.set_f_element _ _).trans (h.noElement j hj)
  · intro f hmem
    rcases hframes f hmem with hphase | hmem
    · rw [hphase]
      exact .test
    · exact h.locals_rest hn hf rfl (fun j hj => Table.set_f_ne _ _ hj) f hmem
  · intro j hj
    change j ∉ held frames at hj
    by_cases hjk : j = k
    · subst hjk
      exact Table.set_self _ _ _
    · refine (Table.set_f_ne _ _ hjk).trans (h.noLocal j ?_)
      rw [hf, held_cons]
      rw [hheld] at hj
      exact fun hmem => (List.mem_cons.mp hmem).elim hjk hj
  · obtain ⟨ran, hran, hperm⟩ := h.history
    refine ⟨ran, hran, ?_⟩
    change ((started log).map Prod.snd).Perm (ran ++ running frames)
    rw [hf, running_cons] at hperm
    rw [hlog, hrunning]
    exact hperm

theorem Stores.quiet (h : Stores e t) {frames : List (Frame (ℕ × Callable V F))} {calls : ℕ}
    {log : List (UnsynchronizedExecutionContext.Event (ℕ × Callable V F))}
    (hframes : ∀ f ∈ frames, f.phase = .test ∨ f ∈ e.frames) (hheld : held frames = held e.frames)
    (hrunning : running frames = running e.frames) (hlog : started log = started e.log) :
    Stores { e with frames, calls, log } t where
  element := h.element
  noElement := h.noElement
  locals f hmem := by
    rcases hframes f hmem with hphase | hmem
    · rw [hphase]
      exact .test
    · exact h.locals f hmem
  noLocal k hk := h.noLocal k (hheld ▸ hk)
  history := by
    change ∃ ran, t.history = _ ∧ ((started log).map Prod.snd).Perm (ran ++ running frames)
    rw [hlog, hrunning]
    exact h.history

end Objects

theorem step_stores {s s' : State V F} {a : Act V F} {t : Table (Name ℕ) V F}
    (hn : Numbered s.context) (hs : Stores s.context t)
    (h : (machine V F).step s a = some s') :
    Numbered s'.context ∧ ∃ t', Table.machine.run t (operations s a) = some t' ∧
      Stores s'.context t' ∧ s'.operations = s.operations ++ operations s a := by
  obtain ⟨context, hstep, rfl⟩ := Option.map_eq_some_iff.mp h
  change (UnsynchronizedExecutionContext.machine (ℕ × Callable V F)).step s.context (label s a) =
    some context at hstep
  have hn' : Numbered context := by
    refine step_numbered hn ?_ hstep
    intro p hp
    cases a <;> cases hp
    rfl
  have ht := UnsynchronizedExecutionContext.step_trans hstep
  suffices hsuff : ∃ t', Table.machine.run t (operations s a) = some t' ∧ Stores context t' by
    obtain ⟨t', hrun, hstores⟩ := hsuff
    exact ⟨hn', t', hrun, hstores, rfl⟩
  cases a with
  | post c =>
    cases ht
    exact stores_post hn hs c
  | run =>
    cases ht
    refine ⟨t, rfl, hs.quiet ?_ ?_ ?_ rfl⟩
    · intro f hf
      exact (List.mem_cons.mp hf).imp (fun h => by rw [h]) id
    · rw [held_cons]; rfl
    · rw [running_cons]; rfl
  | iterate =>
    cases ht with
    | leave hf hq =>
      refine ⟨t, by rw [operations, hq]; rfl, hs.quiet ?_ ?_ ?_ ?_⟩
      · exact fun f hmem => .inr (hf ▸ List.mem_cons_of_mem _ hmem)
      · rw [hf, held_cons]; rfl
      · rw [hf, running_cons]; rfl
      · simp [UnsynchronizedExecutionContext.Event.start?]
    | start hf hq => exact stores_start hn hs hf hq
  | finish after =>
    cases ht with
    | finish hf => exact stores_call hn hs hf after false
  | throw after =>
    cases ht with
    | throw hf => exact stores_call hn hs hf after true
  | destroyed =>
    cases ht with
    | again hf =>
      refine stores_destroy hn hs hf ?_ ?_ ?_ rfl
      · exact fun f hmem => (List.mem_cons.mp hmem).imp (fun h => by rw [h]) id
      · rw [held_cons]; rfl
      · rw [running_cons]; rfl
    | unwind hf =>
      refine stores_destroy hn hs hf (fun f hmem => .inr hmem) rfl rfl ?_
      simp [UnsynchronizedExecutionContext.Event.start?]

structure Inv (s : State V F) : Prop where
  numbered : Numbered s.context
  stores : ∃ t, Table.machine.run Table.init s.operations = some t ∧ Stores s.context t

theorem run_inv {acts : List (Act V F)} {s : State V F}
    (h : (machine V F).run .new acts = some s) : Inv s := by
  refine Machine.invariant_of_step (I := Inv) ?_ ⟨new_numbered, _, rfl, new_stores⟩ h
  intro s a s' hs hstep
  obtain ⟨t, ht, hstores⟩ := hs.stores
  obtain ⟨hn, t', ht', hstores', hops⟩ := step_stores hs.numbered hstores hstep
  refine ⟨hn, t', ?_, hstores'⟩
  rw [hops, Machine.run_append, ht]
  exact ht'

theorem Stores.exists_holder {e : UnsynchronizedExecutionContext.State (ℕ × Callable V F)}
    {t : Table (Name ℕ) V F} (h : Stores e t) {n : Name ℕ} (hn : t.entries n ≠ none) :
    (∃ p ∈ e.functionQueue, n = .element p.1) ∨ ∃ k ∈ held e.frames, n = .f k := by
  cases n with
  | element k =>
    refine .inl ?_
    by_contra hno
    refine hn (h.noElement k fun hmem => ?_)
    obtain ⟨p, hp, rfl⟩ := List.mem_map.mp hmem
    exact hno ⟨p, hp, rfl⟩
  | f k =>
    refine .inr ⟨k, ?_, rfl⟩
    by_contra hno
    exact hn (h.noLocal k hno)

/-- In every run of the context, with tasks of any types and sizes that post, run the context
themselves, return or throw, and wherever the objects are put: none of the operations on the
objects is forbidden.  The elements of the queue hold the tasks that wait, the local variables
those that are being called, and there are no other objects; each task that has been
started has been called, or is being called, once; what lives is held by one object, and when
the queue is empty and no activation of `run` is left, nothing lives any more. -/
theorem queue_keeps_functions [DecidableEq F] (address : F → ℕ) {acts : List (Act V F)}
    {s : State V F} (h : (machine V F).run .new acts = some s)
    {ops : List (Op (Name ℕ) V F × Placement)} (hops : ops.map Prod.fst = s.operations)
    (hplaced : (UniqueFunction.machine address).Before (Placed address) .init ops) :
    ∃ u, (UniqueFunction.machine address).run .init ops = some u ∧
      (∀ p ∈ s.context.functionQueue, u.callable (.element p.1) = some (some p.2)) ∧
      (∀ f ∈ s.context.frames, ∀ p, f.phase = .invoke p →
        u.callable (.f p.1) = some (some p.2)) ∧
      (∀ n, u.objects n ≠ none → (∃ p ∈ s.context.functionQueue, n = .element p.1) ∨
        ∃ k ∈ held s.context.frames, n = .f k) ∧
      (∃ ran, u.history = ran.map .ran ∧
        ((started s.context.log).map Prod.snd).Perm (ran ++ running s.context.frames)) ∧
      Accounted u ∧
      (s.context.functionQueue = [] → s.context.frames = [] →
        ∀ n k, u.objects n = none ∧ u.memory (.object n) = none ∧ u.memory (.heap k) = none) := by
  obtain ⟨t, ht, hstores⟩ := (run_inv h).stores
  rw [← hops] at ht
  obtain ⟨u, hu, hr⟩ := UniqueFunction.exists_refining_run address hplaced ht
  have hobjects (n : Name ℕ) (hn : u.objects n ≠ none) :
      (∃ p ∈ s.context.functionQueue, n = .element p.1) ∨
        ∃ k ∈ held s.context.frames, n = .f k :=
    hstores.exists_holder fun hnone => hn (hr.absent n hnone).1
  refine ⟨u, hu, ?_, ?_, hobjects, ?_, hr.accounted, ?_⟩
  · intro p hp
    rw [hr.callable]
    exact hstores.element p hp
  · intro f hf p hp
    rw [hr.callable]
    have hkept := hstores.locals f hf
    rw [hp] at hkept
    cases hkept with
    | invoke k c hk => exact hk
  · rw [hr.history]
    exact hstores.history
  · intro hqueue hframes n k
    have hnone (n : Name ℕ) : u.objects n = none := by
      by_contra hn
      rcases hobjects n hn with ⟨p, hp, -⟩ | ⟨k, hk, -⟩
      · rw [hqueue] at hp
        exact List.not_mem_nil hp
      · rw [hframes] at hk
        exact List.not_mem_nil hk
    exact ⟨hnone n, hr.accounted.nothing_lives hnone n k⟩

section OneTask

open UniqueFunction (smallType)

def oneTask : List (Act ℕ Bool) :=
  [.post (.object smallType 5), .run, .iterate, .finish 7, .destroyed, .iterate]

def oneTaskOps : List (Op (Name ℕ) ℕ Bool × Placement) :=
  [(.emplace (.element 0) smallType 5, ⟨64, 0, 512, 0⟩),
    (.moveConstruct (.f 0) (.element 0), ⟨128, 0, 0, 192⟩),
    (.destroy (.element 0), ⟨0, 0, 0, 0⟩), (.call (.f 0) 7, ⟨0, 0, 0, 0⟩),
    (.destroy (.f 0), ⟨0, 0, 0, 0⟩)]

theorem oneTaskOps_placed :
    (UniqueFunction.machine fun _ => 8).Before (Placed fun _ => 8) .init oneTaskOps := by
  refine ⟨⟨⟨⟨1, rfl⟩, ?_, fun _ => by decide⟩, rfl, ⟨64, rfl⟩, ?_, by decide⟩, ?_⟩
  · intro k slot hslot
    cases hslot
  · intro m o ho
    cases ho
  intro s hs
  cases hs
  refine ⟨⟨⟨⟨2, rfl⟩, ?_, fun _ => by decide⟩, ⟨3, rfl⟩⟩, ?_⟩
  · intro k slot hslot
    cases hslot
  · exact fun s _ => ⟨trivial, fun s _ => ⟨trivial, fun s _ => ⟨trivial, fun s _ => trivial⟩⟩⟩

theorem queue_keeps_functions_one : ∃ u,
    (UniqueFunction.machine fun _ => 8).run .init oneTaskOps = some u ∧
      ∀ n k, u.objects n = none ∧ u.memory (.object n) = none ∧ u.memory (.heap k) = none := by
  obtain ⟨s, h, hops, hqueue, hframes⟩ : ∃ s, (machine ℕ Bool).run .new oneTask = some s ∧
      oneTaskOps.map Prod.fst = s.operations ∧ s.context.functionQueue = [] ∧
      s.context.frames = [] := ⟨_, rfl, rfl, rfl, rfl⟩
  obtain ⟨u, hu, -, -, -, -, -, hnone⟩ :=
    queue_keeps_functions (fun _ => 8) h hops oneTaskOps_placed
  exact ⟨u, hu, hnone hqueue hframes⟩

end OneTask

end BadIo.ExecutionContext.Storage
