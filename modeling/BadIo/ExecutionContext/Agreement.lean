import BadIo.ExecutionContext.Synchronized
import BadIo.ExecutionContext.Unsynchronized

namespace BadIo.ExecutionContext

/-- What running a task and destroying its callable do to the state of the program, and
which tasks they post. -/
structure Program (σ τ : Type*) where
  body : τ → σ → σ × List τ
  destroy : τ → σ → σ × List τ

structure Ended (σ τ : Type*) where
  state : σ
  functionQueue : List τ
  executed : List τ
  count : ℕ
  deriving DecidableEq

def Ended.turn {σ τ : Type*} (f : τ) (e : Ended σ τ) : Ended σ τ :=
  { e with executed := f :: e.executed, count := e.count + 1 }

variable {σ τ : Type*} (P : Program σ τ)

/-- `run` of the unsynchronized context, for at most `fuel` turns of its loop. -/
def unsynchronizedRun : ℕ → σ → List τ → Option (Ended σ τ)
  | _, s, [] => some ⟨s, [], [], 0⟩
  | 0, _, _ :: _ => none
  | fuel + 1, s, f :: queue =>
    let body := P.body f s
    let destroy := P.destroy f body.1
    (unsynchronizedRun fuel destroy.1 (queue ++ body.2 ++ destroy.2)).map (Ended.turn f)

def Program.destroyStorage : Option τ → σ → σ × List τ
  | none, s => (s, [])
  | some f, s => P.destroy f s

/-- `try_pop` move-assigns the front of the queue to `f`, which swaps the two, and destroys
what it has popped. -/
def tryPop (f : Option τ) : List τ → Option (τ × Option τ × List τ)
  | [] => none
  | front :: queue => some (front, f, queue)

/-- `run` of the synchronized context, with its local variable `f`. -/
def synchronizedRun : ℕ → σ → List τ → Option τ → Option (Ended σ τ)
  | fuel, s, queue, f => match tryPop f queue, fuel with
    | none, _ =>
      -- `f` is destroyed on the way out
      let destroy := P.destroyStorage f s
      some ⟨destroy.1, queue ++ destroy.2, [], 0⟩
    | some _, 0 => none
    | some (front, popped, queue), fuel + 1 =>
      let destroy := P.destroyStorage popped s
      let body := P.body front destroy.1
      (synchronizedRun fuel body.1 (queue ++ destroy.2 ++ body.2) (some front)).map
        (Ended.turn front)

/-- The same tasks in the same order, the same count, and nothing left. -/
structure Agree (e e' : Ended σ τ) : Prop where
  executed : e'.executed = e.executed
  count : e'.count = e.count
  functionQueue : e.functionQueue = [] ∧ e'.functionQueue = []

/-- Whenever the body of a task leaves the queue empty, the destructor of its callable
posts nothing. -/
def Quiet : ℕ → σ → List τ → Prop
  | _, _, [] => True
  | 0, _, _ :: _ => True
  | fuel + 1, s, f :: queue =>
    let body := P.body f s
    let destroy := P.destroy f body.1
    (queue ++ body.2 = [] → destroy.2 = []) ∧
      Quiet fuel destroy.1 (queue ++ body.2 ++ destroy.2)

variable {P} {fuel : ℕ} {s : σ} {queue : List τ} {e e' : Ended σ τ}

theorem unsynchronizedRun_nil : unsynchronizedRun P fuel s [] = some ⟨s, [], [], 0⟩ := by
  unfold unsynchronizedRun
  rfl

theorem tryPop_eq_none {f : Option τ} (h : tryPop f queue = none) : queue = [] := by
  cases queue with
  | nil => rfl
  | cons front queue => cases h

theorem tryPop_eq_some {f popped : Option τ} {front : τ} {rest : List τ}
    (h : tryPop f queue = some (front, popped, rest)) : queue = front :: rest ∧ popped = f := by
  cases queue with
  | nil => cases h
  | cons front queue =>
    cases h
    exact ⟨rfl, rfl⟩

section Unsynchronized

open UnsynchronizedExecutionContext

variable {t : State τ} {call count : ℕ} {rest : List (Frame τ)}

theorem reachable_posts (h : t.inUserCode = true) (fs : List τ) :
    (machine τ).Reachable t { t with
      functionQueue := t.functionQueue ++ fs, log := t.log ++ fs.map .posted } := by
  induction fs generalizing t with
  | nil =>
    simp only [List.map_nil, List.append_nil]
    exact .refl _ t
  | cons f fs ih =>
    have hpost : (machine τ).step t (.post f) = some { t with
        functionQueue := t.functionQueue ++ [f], log := t.log ++ [.posted f] } := if_pos h
    have hrest := ih (t := { t with
      functionQueue := t.functionQueue ++ [f], log := t.log ++ [.posted f] }) h
    simpa only [List.map_cons, List.append_assoc, List.singleton_append] using
      (Machine.Reachable.single hpost).trans hrest

theorem started_posts (log : List (Event τ)) (fs : List τ) :
    started (log ++ fs.map .posted) = started log := by
  induction fs generalizing log with
  | nil => rw [List.map_nil, List.append_nil]
  | cons f fs ih =>
    rw [List.map_cons, List.append_cons, ih, started_snoc]
    exact List.append_nil _

theorem reachable_turn {f : τ} {queue : List τ} (hf : t.frames = ⟨call, count, .test⟩ :: rest)
    (hq : t.functionQueue = f :: queue) (fs gs : List τ) :
    ∃ t', (machine τ).Reachable t t' ∧ t'.functionQueue = queue ++ fs ++ gs ∧
      t'.frames = ⟨call, count + 1, .test⟩ :: rest ∧ started t'.log = started t.log ++ [f] := by
  have hstart : (machine τ).step t .iterate = some { t with
      functionQueue := queue
      frames := ⟨call, count, .invoke f⟩ :: rest
      log := t.log ++ [.started call f] } := by
    simp only [machine, step, hf, hq]
  have hbody := (Machine.Reachable.single hstart).trans (reachable_posts rfl fs)
  have hdestroy := (hbody.tail (a := .finish) rfl).trans (reachable_posts rfl gs)
  refine ⟨_, hdestroy.tail (a := .destroyed) rfl, rfl, rfl, ?_⟩
  rw [started_posts, started_posts, started_snoc]
  rfl

theorem reachable_leave (hf : t.frames = ⟨call, count, .test⟩ :: rest)
    (hq : t.functionQueue = []) :
    ∃ t', (machine τ).Reachable t t' ∧ t'.frames = rest ∧ t'.functionQueue = [] ∧
      started t'.log = started t.log ++ [] ∧ t'.log.getLast? = some (.returned call count) := by
  have hleave : (machine τ).step t .iterate =
      some { t with frames := rest, log := t.log ++ [.returned call count] } := by
    simp only [machine, step, hf, hq]
  refine ⟨_, .single hleave, rfl, hq, ?_, ?_⟩
  · rw [started_snoc]
    rfl
  · exact List.getLast?_concat

/-- `unsynchronizedRun` is an activation of `run` from the test of its loop to its return. -/
theorem unsynchronizedRun_reachable (h : unsynchronizedRun P fuel s queue = some e)
    (hq : t.functionQueue = queue) (hf : t.frames = ⟨call, count, .test⟩ :: rest) :
    ∃ t', (machine τ).Reachable t t' ∧ t'.frames = rest ∧ t'.functionQueue = e.functionQueue ∧
      started t'.log = started t.log ++ e.executed ∧
      t'.log.getLast? = some (.returned call (count + e.count)) := by
  fun_induction unsynchronizedRun P fuel s queue generalizing t count e with
  | case1 _ s =>
    cases h
    exact reachable_leave hf hq
  | case2 => cases h
  | case3 fuel s f queue body =>
    rename_i destroy ih
    obtain ⟨e₁, h₁, rfl⟩ := Option.map_eq_some_iff.mp h
    obtain ⟨t₁, ht₁, hq₁, hf₁, hs₁⟩ := reachable_turn hf hq body.2 destroy.2
    obtain ⟨t', ht', hframes, hqueue, hstarted, hlast⟩ := ih h₁ hq₁ hf₁
    refine ⟨t', ht₁.trans ht', hframes, hqueue, ?_, ?_⟩
    · rw [hstarted, hs₁, List.append_assoc]
      rfl
    · rw [hlast, Ended.turn, Nat.add_assoc, Nat.add_comm 1]

end Unsynchronized

section Synchronized

open SynchronizedExecutionContext

variable {g g' : Shared τ} {l l' : Local τ}

def alone (g : Shared τ) (l : Local τ) : Config Unit (Shared τ) (Local τ) := ⟨g, fun _ => l⟩

theorem alone_step {a : Act τ} (h : step g l a = some (g', l')) :
    (machine Unit τ).Reachable (alone g l) (alone g' l') := by
  refine .single (a := ((), a)) (interleave_step.mpr ⟨g', l', h, ?_⟩)
  refine congrArg (Config.mk g') (funext fun i => ?_)
  rfl

theorem alone_posts {a : τ → Act τ} (h : ∀ g t, step g l (a t) = some (g.emplace t, l))
    (g : Shared τ) (fs : List τ) :
    (machine Unit τ).Reachable (alone g l) (alone { g with
      functionQueue := g.functionQueue ++ fs, posted := g.posted ++ fs } l) := by
  induction fs generalizing g with
  | nil =>
    simp only [List.append_nil]
    exact .refl _ (alone g l)
  | cons f fs ih =>
    simpa only [Shared.emplace, List.append_assoc, List.singleton_append] using
      (alone_step (h g f)).trans (ih (g.emplace f))

theorem alone_pop (count : ℕ) {f : Option τ} {front : τ} (hq : g.functionQueue = front :: queue) :
    ∃ g', (machine Unit τ).Reachable (alone g (.poll f count)) (alone g' (.invoke front count)) ∧
      g'.functionQueue = queue ++ (P.destroyStorage f s).2 ∧
      g'.executed = g.executed ++ [front] := by
  cases f with
  | none =>
    have hpop : step g (.poll none count) .tryPop = some ({ g with
        functionQueue := queue, popped := g.popped ++ [front],
        executed := g.executed ++ [front] }, .invoke front count) := by
      simp only [step, hq]
    exact ⟨_, alone_step hpop, (List.append_nil queue).symm, rfl⟩
  | some old =>
    have hpop : step g (.poll (some old) count) .tryPop = some ({ g with
        functionQueue := queue, popped := g.popped ++ [front] }, .destroy old front count) := by
      simp only [step, hq]
    have hposts := (alone_step hpop).trans
      (alone_posts (a := .destroyPost) (fun _ _ => rfl) _ (P.destroy old s).2)
    exact ⟨_, hposts.trans (alone_step (a := .destroyed) rfl), rfl, rfl⟩

theorem alone_turn (count : ℕ) {f : Option τ} {front : τ}
    (hq : g.functionQueue = front :: queue) (fs : List τ) :
    ∃ g', (machine Unit τ).Reachable (alone g (.poll f count))
        (alone g' (.poll (some front) (count + 1))) ∧
      g'.functionQueue = queue ++ (P.destroyStorage f s).2 ++ fs ∧
      g'.executed = g.executed ++ [front] := by
  obtain ⟨g₁, hpop, hq₁, he₁⟩ := alone_pop (P := P) (s := s) (f := f) count hq
  have hposts := hpop.trans (alone_posts (a := .post) (fun _ _ => rfl) g₁ fs)
  exact ⟨_, hposts.trans (alone_step (a := .finish) rfl), congrArg (· ++ fs) hq₁, he₁⟩

theorem alone_leave {count : ℕ} {f : Option τ} (hq : g.functionQueue = []) :
    ∃ g', (machine Unit τ).Reachable (alone g (.poll f count)) (alone g' (.returned count)) ∧
      g'.functionQueue = (P.destroyStorage f s).2 ∧ g'.executed = g.executed ++ [] := by
  have hempty : step g (.poll f count) .tryPop = some (g, .leave f count) := by
    simp only [step, hq]
  cases f with
  | none =>
    refine ⟨g, (alone_step hempty).trans (alone_step (a := .destroyed) rfl), hq, ?_⟩
    exact (List.append_nil g.executed).symm
  | some old =>
    have hposts := (alone_step hempty).trans
      (alone_posts (a := .destroyPost) (fun _ _ => rfl) g (P.destroy old s).2)
    refine ⟨_, hposts.trans (alone_step (a := .destroyed) rfl), ?_, ?_⟩
    · exact congrArg (· ++ (P.destroy old s).2) hq
    · exact (List.append_nil g.executed).symm

/-- `synchronizedRun` is the run of a thread that is alone on its context. -/
theorem synchronizedRun_reachable {f : Option τ} (h : synchronizedRun P fuel s queue f = some e)
    (hq : g.functionQueue = queue) (count : ℕ) :
    ∃ g', (machine Unit τ).Reachable (alone g (.poll f count))
        (alone g' (.returned (count + e.count))) ∧
      g'.functionQueue = e.functionQueue ∧ g'.executed = g.executed ++ e.executed := by
  fun_induction synchronizedRun P fuel s queue f generalizing g count e with
  | case1 fuel s queue f hpop =>
    obtain rfl := tryPop_eq_none hpop
    cases h
    exact alone_leave hq
  | case2 => cases h
  | case3 s queue f front popped rest fuel hpop destroy =>
    rename_i body ih
    obtain ⟨rfl, rfl⟩ := tryPop_eq_some hpop
    obtain ⟨e₁, h₁, rfl⟩ := Option.map_eq_some_iff.mp h
    obtain ⟨g₁, hturn, hq₁, he₁⟩ := alone_turn count hq body.2
    obtain ⟨g', hrun, hqueue, hexec⟩ := ih h₁ hq₁ (count + 1)
    refine ⟨g', ?_, hqueue, ?_⟩
    · rw [Ended.turn, Nat.add_comm e₁.count, ← Nat.add_assoc]
      exact hturn.trans hrun
    · rw [hexec, he₁, List.append_assoc]
      rfl

end Synchronized

theorem Agree.turn_iff (f : τ) : Agree (e.turn f) (e'.turn f) ↔ Agree e e' := by
  constructor
  · intro h
    exact ⟨(List.cons.inj h.executed).2, Nat.succ.inj h.count, h.functionQueue⟩
  · intro h
    exact ⟨congrArg (f :: ·) h.executed, congrArg (· + 1) h.count, h.functionQueue⟩

theorem quiet_nil : Quiet P fuel s [] := by
  unfold Quiet
  trivial

theorem agree_iff_leaving {f : Option τ} :
    (∃ e, unsynchronizedRun P fuel (P.destroyStorage f s).1 (P.destroyStorage f s).2 = some e ∧
      Agree e ⟨(P.destroyStorage f s).1, (P.destroyStorage f s).2, [], 0⟩) ↔
      (P.destroyStorage f s).2 = [] ∧
        Quiet P fuel (P.destroyStorage f s).1 (P.destroyStorage f s).2 := by
  constructor
  · intro ⟨e, _, ha⟩
    have hposts : (P.destroyStorage f s).2 = [] := ha.functionQueue.2
    rw [hposts]
    exact ⟨rfl, quiet_nil⟩
  · intro ⟨hposts, _⟩
    rw [hposts]
    exact ⟨_, unsynchronizedRun_nil, rfl, rfl, rfl, rfl⟩

theorem agree_iff_holding {f : Option τ} (h : synchronizedRun P fuel s queue f = some e') :
    (∃ e, unsynchronizedRun P fuel (P.destroyStorage f s).1
        (queue ++ (P.destroyStorage f s).2) = some e ∧ Agree e e') ↔
      (queue = [] → (P.destroyStorage f s).2 = []) ∧
        Quiet P fuel (P.destroyStorage f s).1 (queue ++ (P.destroyStorage f s).2) := by
  -- the unsynchronized context has destroyed `f` and is in front of its loop, where the other
  -- one still holds it
  fun_induction synchronizedRun P fuel s queue f generalizing e' with
  | case1 fuel s queue f hpop =>
    obtain rfl := tryPop_eq_none hpop
    cases h
    rw [List.nil_append, agree_iff_leaving, imp_iff_right (rfl : ([] : List τ) = [])]
  | case2 => cases h
  | case3 s queue f front popped rest fuel hpop destroy =>
    rename_i body ih
    obtain ⟨rfl, rfl⟩ := tryPop_eq_some hpop
    obtain ⟨e₁, h₁, rfl⟩ := Option.map_eq_some_iff.mp h
    -- from here on it is `front` that the synchronized context holds
    have hagree := ih h₁
    rw [List.cons_append, Quiet, unsynchronizedRun]
    constructor
    · intro ⟨e, he, ha⟩
      obtain ⟨e₂, h₂, rfl⟩ := Option.map_eq_some_iff.mp he
      exact ⟨nofun, hagree.mp ⟨e₂, h₂, (Agree.turn_iff front).mp ha⟩⟩
    · intro ⟨_, hq⟩
      obtain ⟨e₂, h₂, ha⟩ := hagree.mpr hq
      exact ⟨e₂.turn front, congrArg (Option.map (Ended.turn front)) h₂,
        (Agree.turn_iff front).mpr ha⟩

theorem exists_synchronizedRun {f : Option τ}
    (h : unsynchronizedRun P fuel (P.destroyStorage f s).1
      (queue ++ (P.destroyStorage f s).2) = some e) :
    ∃ e', synchronizedRun P fuel s queue f = some e' := by
  -- the synchronized context leaves its loop no later than the other one
  fun_induction synchronizedRun P fuel s queue f generalizing e with
  | case1 => exact ⟨_, rfl⟩
  | case2 s queue f popped hpop =>
    obtain ⟨rfl, -⟩ := tryPop_eq_some hpop
    cases h
  | case3 s queue f front popped rest fuel hpop destroy =>
    rename_i body ih
    obtain ⟨rfl, rfl⟩ := tryPop_eq_some hpop
    rw [List.cons_append, unsynchronizedRun] at h
    obtain ⟨e₁, h₁, -⟩ := Option.map_eq_some_iff.mp h
    obtain ⟨e', he'⟩ := ih h₁
    exact ⟨e'.turn front, congrArg (Option.map (Ended.turn front)) he'⟩

/-- Where the drain is finite, the two contexts agree on it exactly if it is quiet. -/
theorem agree_iff_quiet (h : (∃ e, unsynchronizedRun P fuel s queue = some e) ∨
    ∃ e', synchronizedRun P fuel s queue none = some e') :
    (∃ e e', unsynchronizedRun P fuel s queue = some e ∧
        synchronizedRun P fuel s queue none = some e' ∧ Agree e e') ↔
      Quiet P fuel s queue := by
  have hempty : queue ++ (P.destroyStorage none s).2 = queue := List.append_nil queue
  obtain ⟨e', he'⟩ : ∃ e', synchronizedRun P fuel s queue none = some e' := by
    rcases h with ⟨e, he⟩ | h
    · exact exists_synchronizedRun (f := none) (hempty.symm ▸ he)
    · exact h
  have hagree := agree_iff_holding he'
  rw [hempty] at hagree
  constructor
  · rintro ⟨e, e₁, he, he₁, ha⟩
    obtain rfl := Option.some.inj (he'.symm.trans he₁)
    exact (hagree.mp ⟨e, he, ha⟩).2
  · intro hq
    obtain ⟨e, he, ha⟩ := hagree.mpr ⟨fun _ => rfl, hq⟩
    exact ⟨e, e', he, he', ha⟩

/-- Task `0` captures a guard that posts task `1` when it is destroyed. -/
def guarded : Program Unit ℕ where
  body f s := (s, if f = 2 then [0, 1] else [])
  destroy f s := (s, if f = 0 then [1] else [])

/-- The guard posts while another task waits. -/
theorem agree_iff_quiet_guarded :
    ∃ e e', unsynchronizedRun guarded 4 () [2] = some e ∧
      synchronizedRun guarded 4 () [2] none = some e' ∧ Agree e e' :=
  (agree_iff_quiet (.inl ⟨⟨(), [], [2, 0, 1, 1], 4⟩, rfl⟩)).mpr
    ⟨nofun, nofun, fun _ => rfl, fun _ => rfl, trivial⟩

/-- The last task of the drain has the guard, and what it posts is left in the queue. -/
theorem guarded_left_behind :
    unsynchronizedRun guarded 2 () [0] = some ⟨(), [], [0, 1], 2⟩ ∧
      synchronizedRun guarded 2 () [0] none = some ⟨(), [1], [0], 1⟩ ∧
      ¬ Agree (⟨(), [], [0, 1], 2⟩ : Ended Unit ℕ) ⟨(), [1], [0], 1⟩ :=
  ⟨rfl, rfl, fun ha => nomatch ha.count⟩

end BadIo.ExecutionContext
