import BadIo.ExecutionContext.Agreement

namespace BadIo.ExecutionContext

/-- What the tasks of a generation lead to.  What the destructor of the last callable posts
is kept apart: the synchronized context destroys it when the next task has been popped. -/
structure Generation (σ τ : Type*) where
  state : σ
  posted : List τ
  destroyed : List τ

def Generation.next {σ τ : Type*} (g : Generation σ τ) : List τ := g.posted ++ g.destroyed

variable {σ τ : Type*} (P : Program σ τ)

def Program.generation : σ → List τ → Generation σ τ
  | s, [] => ⟨s, [], []⟩
  | s, [f] =>
    let body := P.body f s
    let destroy := P.destroy f body.1
    ⟨destroy.1, body.2, destroy.2⟩
  | s, f :: g :: fs =>
    let body := P.body f s
    let destroy := P.destroy f body.1
    let rest := Program.generation destroy.1 (g :: fs)
    { rest with posted := body.2 ++ destroy.2 ++ rest.posted }

/-- Generation `n`, where `queue` is generation `0`. -/
def Program.generations : ℕ → σ → List τ → Generation σ τ
  | 0, s, queue => P.generation s queue
  | n + 1, s, queue =>
    Program.generations n (P.generation s queue).state (P.generation s queue).next

def Program.tasks : ℕ → σ → List τ → List τ
  | 0, _, queue => queue
  | n + 1, s, queue =>
    queue ++ Program.tasks n (P.generation s queue).state (P.generation s queue).next

def Program.ended (n : ℕ) (s : σ) (queue : List τ) : Ended σ τ :=
  ⟨(P.generations n s queue).state, (P.generations n s queue).destroyed, P.tasks n s queue,
    (P.tasks n s queue).length⟩

/-- The loop, where `leave` is asked at the end of a turn, about the queue before the
callable is destroyed and about what its destructor posts. -/
def drain (leave : List τ → List τ → Bool) : ℕ → σ → List τ → Option (Ended σ τ)
  | _, s, [] => some ⟨s, [], [], 0⟩
  | 0, _, _ :: _ => none
  | fuel + 1, s, f :: queue =>
    let body := P.body f s
    let destroy := P.destroy f body.1
    if leave (queue ++ body.2) destroy.2 then some ⟨destroy.1, destroy.2, [f], 1⟩
    else (drain leave fuel destroy.1 (queue ++ body.2 ++ destroy.2)).map (Ended.turn f)

variable {P} {fuel : ℕ} {s : σ} {queue : List τ} {e : Ended σ τ}

theorem unsynchronizedRun_eq_drain : unsynchronizedRun P fuel s queue =
    drain P (fun queue destroyed => (queue ++ destroyed).isEmpty) fuel s queue := by
  fun_induction unsynchronizedRun P fuel s queue with
  | case1 => rw [drain]
  | case2 => rw [drain]
  | case3 fuel s f queue body =>
    rename_i destroy ih
    rw [drain, ih]
    split
    · rename_i hleave
      have hnil : queue ++ body.2 ++ destroy.2 = [] := List.isEmpty_iff.mp hleave
      have hdestroy : destroy.2 = [] := (List.append_eq_nil_iff.mp hnil).2
      rw [hnil, drain]
      exact congrArg (fun rest => some (Ended.mk destroy.1 rest [f] 1)) hdestroy.symm
    · rfl

theorem synchronizedRun_nil (f : Option τ) : synchronizedRun P fuel s [] f =
    some ⟨(P.destroyStorage f s).1, (P.destroyStorage f s).2, [], 0⟩ := by
  cases fuel <;> rfl

theorem synchronizedRun_zero (f : Option τ) (front : τ) :
    synchronizedRun P 0 s (front :: queue) f = none := rfl

theorem synchronizedRun_cons (f : Option τ) (front : τ) :
    synchronizedRun P (fuel + 1) s (front :: queue) f =
      (synchronizedRun P fuel (P.body front (P.destroyStorage f s).1).1
        (queue ++ (P.destroyStorage f s).2 ++ (P.body front (P.destroyStorage f s).1).2)
        (some front)).map (Ended.turn front) := rfl

theorem synchronizedRun_some (f : τ) (hq : queue ≠ []) :
    synchronizedRun P fuel s queue (some f) =
      synchronizedRun P fuel (P.destroy f s).1 (queue ++ (P.destroy f s).2) none := by
  -- with a task to pop, it makes no difference that the callable is destroyed later
  cases queue with
  | nil => exact absurd rfl hq
  | cons front queue =>
    rw [List.cons_append]
    cases fuel with
    | zero => rw [synchronizedRun_zero, synchronizedRun_zero]
    | succ fuel =>
      rw [synchronizedRun_cons, synchronizedRun_cons]
      simp only [Program.destroyStorage, List.append_nil]

theorem synchronizedRun_eq_drain : synchronizedRun P fuel s queue none =
    drain P (fun queue _ => queue.isEmpty) fuel s queue := by
  fun_induction drain P (fun queue _ => queue.isEmpty) fuel s queue with
  | case1 => rw [synchronizedRun_nil, Program.destroyStorage]
  | case2 => rw [synchronizedRun_zero]
  | case3 fuel s f queue body destroy hleave =>
    have hnil : queue ++ [] ++ body.2 = [] := by
      rw [List.append_nil]
      exact List.isEmpty_iff.mp hleave
    rw [synchronizedRun_cons, Program.destroyStorage, hnil, synchronizedRun_nil]
    rfl
  | case4 fuel s f queue body destroy hleave ih =>
    have hne : queue ++ body.2 ≠ [] := fun hnil => hleave (List.isEmpty_iff.mpr hnil)
    rw [← ih, ← synchronizedRun_some f hne, synchronizedRun_cons, Program.destroyStorage,
      List.append_nil]

def Ended.after (fs : List τ) (e : Ended σ τ) : Ended σ τ :=
  { e with executed := fs ++ e.executed, count := e.count + fs.length }

variable {leave : List τ → List τ → Bool}

theorem drain_nil : drain P leave fuel s [] = some ⟨s, [], [], 0⟩ := by
  rw [drain]

/-- The loop is only left where the queue is empty, so it comes to the end of the generation. -/
theorem drain_generation (P : Program σ τ) (fuel : ℕ) (s : σ)
    (hleave : ∀ rest destroyed, leave rest destroyed = true → rest = []) (hq : queue ≠ [])
    (rest : List τ) : drain P leave (fuel + queue.length) s (queue ++ rest) =
      if leave (rest ++ (P.generation s queue).posted) (P.generation s queue).destroyed then
        some ⟨(P.generation s queue).state, (P.generation s queue).destroyed, queue, queue.length⟩
      else
        (drain P leave fuel (P.generation s queue).state
          (rest ++ (P.generation s queue).next)).map (Ended.after queue) := by
  fun_induction Program.generation P s queue generalizing rest with
  | case1 => exact absurd rfl hq
  | case2 s f body destroy =>
    change drain P leave (fuel + 1) s (f :: rest) = _
    rw [drain, Generation.next, List.append_assoc]
    rfl
  | case3 s f g fs body destroy next ih =>
    have hstay : leave (g :: fs ++ rest ++ body.2) destroy.2 ≠ true :=
      fun h => List.cons_ne_nil _ _ (hleave _ _ h)
    have hrest := ih (List.cons_ne_nil g fs) (rest ++ body.2 ++ destroy.2)
    change drain P leave (fuel + (g :: fs).length + 1) s (f :: (g :: fs ++ rest)) =
      if leave (rest ++ (body.2 ++ destroy.2 ++ next.posted)) next.destroyed then _
      else (drain P leave fuel next.state
        (rest ++ (body.2 ++ destroy.2 ++ next.posted ++ next.destroyed))).map _
    rw [drain, if_neg hstay]
    simp only [Generation.next, List.append_assoc] at hrest ⊢
    rw [hrest]
    split
    · rfl
    · exact Option.map_map _ _ _

theorem length_le_of_drain (hleave : ∀ rest destroyed, leave rest destroyed = true → rest = [])
    (h : drain P leave fuel s queue = some e) : queue.length ≤ fuel := by
  fun_induction drain P leave fuel s queue generalizing e with
  | case1 => exact Nat.zero_le _
  | case2 => cases h
  | case3 fuel s f queue body destroy =>
    rename_i hend
    rw [(List.append_eq_nil_iff.mp (hleave _ _ hend)).1]
    exact Nat.succ_le_succ (Nat.zero_le fuel)
  | case4 fuel s f queue body destroy =>
    rename_i ih
    obtain ⟨e₁, h₁, -⟩ := Option.map_eq_some_iff.mp h
    have hle := ih h₁
    rw [List.append_assoc, List.length_append] at hle
    rw [List.length_cons]
    omega

theorem generation_nil : P.generation s [] = ⟨s, [], []⟩ := by
  rw [Program.generation]

/-- Whether the loop is left after generation `n`. -/
def Program.Leaves (P : Program σ τ) (leave : List τ → List τ → Bool) (s : σ) (queue : List τ)
    (n : ℕ) : Prop :=
  leave (P.generations n s queue).posted (P.generations n s queue).destroyed = true

theorem ended_succ (n : ℕ) : P.ended (n + 1) s queue =
    (P.ended n (P.generation s queue).state (P.generation s queue).next).after queue := by
  simp only [Program.ended, Program.generations, Program.tasks, Ended.after, List.length_append,
    Nat.add_comm]

theorem leaves_nil (hnil : leave [] [] = true) : P.Leaves leave s [] 0 := by
  rw [Program.Leaves, Program.generations, generation_nil]
  exact hnil

section Leave

variable (hleave : ∀ rest destroyed, leave rest destroyed = true → rest = [])
include hleave

theorem drain_last (h : P.Leaves leave s queue 0) :
    drain P leave (fuel + queue.length) s queue = some (P.ended 0 s queue) := by
  by_cases hq : queue = []
  · rw [hq, drain_nil, Program.ended, Program.generations, generation_nil, Program.tasks]
    rfl
  · have hgen := drain_generation P fuel s hleave hq []
    rw [List.append_nil] at hgen
    rw [hgen]
    exact if_pos h

variable (hnil : leave [] [] = true)
include hnil

theorem drain_before (h : ¬ P.Leaves leave s queue 0) :
    drain P leave (fuel + queue.length) s queue =
      (drain P leave fuel (P.generation s queue).state (P.generation s queue).next).map
        (Ended.after queue) := by
  have hq : queue ≠ [] := fun hq => h (hq ▸ leaves_nil hnil)
  have hgen := drain_generation P fuel s hleave hq []
  rw [List.append_nil] at hgen
  rw [hgen]
  exact if_neg h

/-- A call returns exactly if some generation is one to leave after, and then it has gone
through the generations up to the first of these. -/
theorem exists_drain_iff : (∃ fuel, drain P leave fuel s queue = some e) ↔
    ∃ n, P.Leaves leave s queue n ∧ (∀ m < n, ¬ P.Leaves leave s queue m) ∧
      e = P.ended n s queue := by
  constructor
  · rintro ⟨fuel, h⟩
    -- what is left after a generation has less fuel
    induction fuel using Nat.strong_induction_on generalizing s queue e with
    | _ fuel ih =>
      have hle := length_le_of_drain hleave h
      obtain ⟨k, rfl⟩ := Nat.exists_eq_add_of_le' hle
      by_cases h0 : P.Leaves leave s queue 0
      · rw [drain_last hleave h0] at h
        exact ⟨0, h0, fun m hm => absurd hm (Nat.not_lt_zero m), (Option.some.inj h).symm⟩
      · have hpos : 0 < queue.length :=
          List.length_pos_of_ne_nil fun hq => h0 (hq ▸ leaves_nil hnil)
        rw [drain_before hleave hnil h0] at h
        obtain ⟨e₁, h₁, rfl⟩ := Option.map_eq_some_iff.mp h
        obtain ⟨n, hn, hfirst, rfl⟩ := ih k (by omega) h₁
        refine ⟨n + 1, hn, fun m hm => ?_, (ended_succ n).symm⟩
        cases m with
        | zero => exact h0
        | succ m => exact hfirst m (by omega)
  · rintro ⟨n, hn, hfirst, rfl⟩
    induction n generalizing s queue with
    | zero => exact ⟨0 + queue.length, drain_last hleave hn⟩
    | succ n ih =>
      have h0 := hfirst 0 (Nat.succ_pos n)
      obtain ⟨fuel, hfuel⟩ := ih hn fun m hm => hfirst (m + 1) (by omega)
      refine ⟨fuel + queue.length, ?_⟩
      rw [drain_before hleave hnil h0, hfuel, ended_succ]
      rfl

end Leave

/-- A call of `run` goes through the generations of its queue one after the other.  It
returns exactly if it comes to one that is followed by an empty one, on the synchronized
context to one of which nothing was posted but by the destructor of its last callable; it
leaves after the first such generation, and what that destructor has posted stays in the
queue. -/
theorem run_generations (s : σ) (queue : List τ) :
    (∀ e, (∃ fuel, unsynchronizedRun P fuel s queue = some e) ↔
      ∃ n, (P.generations n s queue).next = [] ∧ (∀ m < n, (P.generations m s queue).next ≠ []) ∧
        e = P.ended n s queue) ∧
    ∀ e, (∃ fuel, synchronizedRun P fuel s queue none = some e) ↔
      ∃ n, (P.generations n s queue).posted = [] ∧
        (∀ m < n, (P.generations m s queue).posted ≠ []) ∧ e = P.ended n s queue := by
  have hempty : ∀ rest destroyed : List τ, (rest ++ destroyed).isEmpty = true → rest = [] :=
    fun _ _ h => (List.append_eq_nil_iff.mp (List.isEmpty_iff.mp h)).1
  have hpopped : ∀ rest _destroyed : List τ, rest.isEmpty = true → rest = [] :=
    fun _ _ h => List.isEmpty_iff.mp h
  constructor
  · intro e
    simp only [unsynchronizedRun_eq_drain, exists_drain_iff hempty rfl, Program.Leaves,
      List.isEmpty_iff]
    rfl
  · intro e
    simp only [synchronizedRun_eq_drain, exists_drain_iff hpopped rfl, Program.Leaves,
      List.isEmpty_iff]

end BadIo.ExecutionContext
