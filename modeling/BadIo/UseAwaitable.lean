import Mathlib.Logic.Function.Basic
import BadIo.Machine

namespace BadIo.UseAwaitable

variable {ε ρ C : Type*}

inductive Slot (ε ρ : Type*) where
  | monostate
  | error (e : ε)
  | value (result : ρ)
  deriving DecidableEq

namespace Slot

def index : Slot ε ρ → ℕ
  | monostate => 0
  | error _ => 1
  | value _ => 2

def ofResult : Except ε ρ → Slot ε ρ
  | .error e => error e
  | .ok result => value result

end Slot

/-- `state_type`; the coroutine `none` is the no-op coroutine. -/
structure Shared (ε ρ C : Type*) where
  result : Slot ε ρ
  coroutine : Option C
  deriving DecidableEq

namespace Shared

def new : Shared ε ρ C := ⟨.monostate, none⟩

def awaitSuspend (s : Shared ε ρ C) (coroutine : C) : Shared ε ρ C :=
  { s with coroutine := some coroutine }

/-- The error is thrown and the value returned; `none` is for a state without either. -/
def awaitResume (s : Shared ε ρ C) : Shared ε ρ C × Option (Except ε ρ) :=
  match s.result with
  | .monostate => (s, none)
  | .error e => ({ s with result := .monostate }, some (.error e))
  | .value result => ({ s with result := .monostate }, some (.ok result))

/-- The handler is called.  The coroutine that it resumes goes through `await_resume`
before anything else. -/
def call (ndebug : Bool) (s : Shared ε ρ C) (result : Except ε ρ) :
    Shared ε ρ C × List (C × Option (Except ε ρ)) :=
  -- the exception `promise_already_satisfied`
  if ndebug = false ∧ s.result.index ≠ 0 then (s, [])
  else
    let s' := { s with result := .ofResult result }
    match s.coroutine with
    | none => (s', [])
    | some coroutine => (s'.awaitResume.1, [(coroutine, s'.awaitResume.2)])

end Shared

/-- The operations, and for each of them what has happened to it: the call of its handler,
the coroutine that awaited it, and the resumptions with the outcomes of `await_resume`. -/
structure State (ι ε ρ C : Type*) where
  ops : ι → Shared ε ρ C
  handled : ι → Option (Except ε ρ)
  awaited : ι → Option C
  resumed : ι → List (C × Option (Except ε ρ))

/-- `wrap_op` has taken the awaitable out of the handler before it starts the operation, so
that both events can come from the first moment on. -/
inductive Event (ι ε ρ C : Type*) where
  | handler (i : ι) (result : Except ε ρ)
  | await (i : ι) (coroutine : C)
  deriving DecidableEq

variable {ι : Type*} [DecidableEq ι]

def step (ndebug : Bool) (s : State ι ε ρ C) : Event ι ε ρ C → Option (State ι ε ρ C)
  | .handler i result =>
    if (s.handled i).isSome then none
    else
      let r := (s.ops i).call ndebug result
      some { s with
        ops := Function.update s.ops i r.1
        handled := Function.update s.handled i (some result)
        resumed := Function.update s.resumed i (s.resumed i ++ r.2) }
  | .await i coroutine =>
    if (s.awaited i).isSome then none
    else some { s with
      -- `await_ready` is false, so the coroutine is always suspended
      ops := Function.update s.ops i ((s.ops i).awaitSuspend coroutine)
      awaited := Function.update s.awaited i (some coroutine) }

def machine (ι ε ρ C : Type*) [DecidableEq ι] (ndebug : Bool) :
    Machine (State ι ε ρ C) (Event ι ε ρ C) :=
  ⟨step ndebug⟩

def init : State ι ε ρ C := ⟨fun _ => .new, fun _ => none, fun _ => none, fun _ => []⟩

/-- After both events the awaiting coroutine has been resumed once, with the result. -/
def NoneLost (s : State ι ε ρ C) : Prop :=
  ∀ i result coroutine, s.handled i = some result → s.awaited i = some coroutine →
    s.resumed i = [(coroutine, some result)]

def AwaitedFirst (s : State ι ε ρ C) : Event ι ε ρ C → Prop
  | .handler _ _ => True
  | .await i _ => s.handled i = none

inductive Stage (o : Shared ε ρ C) (resumed : List (C × Option (Except ε ρ))) :
    Option (Except ε ρ) → Option C → Prop where
  | pending (coroutine : Option C) (ho : o = ⟨.monostate, coroutine⟩) (hr : resumed = []) :
      Stage o resumed none coroutine
  | completed (result : Except ε ρ) (hr : resumed = []) : Stage o resumed (some result) none
  | resumed (result : Except ε ρ) (coroutine : C) (hr : resumed = [(coroutine, some result)]) :
      Stage o resumed (some result) (some coroutine)

def Inv (s : State ι ε ρ C) : Prop :=
  ∀ i, Stage (s.ops i) (s.resumed i) (s.handled i) (s.awaited i)

omit [DecidableEq ι] in
theorem Inv.noneLost {s : State ι ε ρ C} (h : Inv s) : NoneLost s := by
  intro i result coroutine hh ha
  have hi := h i
  rw [hh, ha] at hi
  cases hi
  assumption

theorem call_pending (ndebug : Bool) (coroutine : Option C) (result : Except ε ρ) :
    Shared.call ndebug ⟨.monostate, coroutine⟩ result =
      match coroutine with
      | none => (⟨.ofResult result, none⟩, [])
      | some c => (⟨.monostate, some c⟩, [(c, some result)]) := by
  rw [Shared.call, if_neg (fun h => h.2 rfl)]
  cases coroutine with
  | none => rfl
  | some c => cases result <;> rfl

theorem stage_handler {o : Shared ε ρ C} {resumed : List (C × Option (Except ε ρ))}
    {awaited : Option C} (h : Stage o resumed none awaited) (ndebug : Bool) (result : Except ε ρ) :
    Stage (o.call ndebug result).1 (resumed ++ (o.call ndebug result).2) (some result) awaited := by
  cases h with
  | pending coroutine ho hr =>
    subst ho hr
    rw [call_pending]
    cases awaited with
    | none => exact .completed result rfl
    | some c => exact .resumed result c rfl

theorem stage_await {o : Shared ε ρ C} {resumed : List (C × Option (Except ε ρ))}
    {awaited : Option C} (h : Stage o resumed none awaited) (coroutine : C) :
    Stage (o.awaitSuspend coroutine) resumed none (some coroutine) := by
  cases h with
  | pending _ ho hr => exact .pending (some coroutine) (by rw [ho]; rfl) hr

theorem stage_early {o : Shared ε ρ C} {resumed : List (C × Option (Except ε ρ))}
    {result : Except ε ρ} (h : Stage o resumed (some result) none) : resumed = [] := by
  cases h
  assumption

variable {ndebug : Bool} {s s' : State ι ε ρ C} {a : Event ι ε ρ C}

theorem step_handler {i : ι} {result : Except ε ρ}
    (h : (machine ι ε ρ C ndebug).step s (.handler i result) = some s') :
    s.handled i = none ∧
      s' = { s with
        ops := Function.update s.ops i ((s.ops i).call ndebug result).1
        handled := Function.update s.handled i (some result)
        resumed := Function.update s.resumed i
          (s.resumed i ++ ((s.ops i).call ndebug result).2) } := by
  change step ndebug s (.handler i result) = some s' at h
  rw [step] at h
  split at h
  · cases h
  · rename_i hn
    exact ⟨Option.not_isSome_iff_eq_none.mp hn, (Option.some.inj h).symm⟩

theorem step_await {i : ι} {coroutine : C}
    (h : (machine ι ε ρ C ndebug).step s (.await i coroutine) = some s') :
    s.awaited i = none ∧
      s' = { s with
        ops := Function.update s.ops i ((s.ops i).awaitSuspend coroutine)
        awaited := Function.update s.awaited i (some coroutine) } := by
  change step ndebug s (.await i coroutine) = some s' at h
  rw [step] at h
  split at h
  · cases h
  · rename_i hn
    exact ⟨Option.not_isSome_iff_eq_none.mp hn, (Option.some.inj h).symm⟩

theorem step_inv (hI : Inv s) (ha : AwaitedFirst s a)
    (h : (machine ι ε ρ C ndebug).step s a = some s') : Inv s' := by
  intro j
  have hj := hI j
  cases a with
  | handler i result =>
    obtain ⟨hn, rfl⟩ := step_handler h
    by_cases hij : j = i
    · subst hij
      rw [hn] at hj
      simpa using stage_handler hj ndebug result
    · simpa [hij] using hj
  | await i coroutine =>
    obtain ⟨-, rfl⟩ := step_await h
    by_cases hij : j = i
    · subst hij
      have hn : s.handled j = none := ha
      rw [hn] at hj
      simpa [hn] using stage_await hj coroutine
    · simpa [hij] using hj

theorem not_noneLost (hI : Inv s) {i : ι} {coroutine : C} {result : Except ε ρ}
    (hh : s.handled i = some result)
    (h : (machine ι ε ρ C ndebug).step s (.await i coroutine) = some s') : ¬ NoneLost s' := by
  obtain ⟨hn, rfl⟩ := step_await h
  have hi := hI i
  rw [hh, hn] at hi
  intro hlost
  have hr := hlost i result coroutine hh (Function.update_self ..)
  rw [stage_early hi] at hr
  cases hr

/-- No wakeup is lost in a run exactly if every operation that is awaited is awaited
before its handler is called. -/
theorem noneLost_iff (ndebug : Bool) (events : List (Event ι ε ρ C)) :
    (machine ι ε ρ C ndebug).Along (fun _ _ s' => NoneLost s') init events ↔
      (machine ι ε ρ C ndebug).Along (fun s a _ => AwaitedFirst s a) init events := by
  refine Machine.along_iff_along (I := Inv) (A := fun _ _ _ => True) ?_ ?_
    (fun _ => .pending none rfl rfl) (Machine.along_true _ events)
  · intro s a s' hI _ h
    constructor
    · intro hlost
      cases a with
      | handler i result => trivial
      | await i coroutine =>
        by_contra hh
        obtain ⟨result, hh⟩ := Option.ne_none_iff_exists'.mp hh
        exact not_noneLost hI hh h hlost
    · exact fun ha => (step_inv hI ha h).noneLost
  · exact fun s a s' hI _ ha h => step_inv hI ha h

/-- The operation completes before its awaitable is awaited. -/
theorem completed_first_lost :
    (∃ s, (machine ℕ ℕ ℕ ℕ false).run init [.handler 0 (.ok 5), .await 0 7] = some s ∧
      s.resumed 0 = []) ∧
    ¬ (machine ℕ ℕ ℕ ℕ false).Along (fun _ _ s' => NoneLost s') init
      [.handler 0 (.ok 5), .await 0 7] := by
  refine ⟨⟨_, rfl, rfl⟩, fun h => ?_⟩
  have hr := h.nth 1 rfl rfl rfl 0 (.ok 5) 7 rfl rfl
  cases hr

end BadIo.UseAwaitable
