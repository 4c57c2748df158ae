import Mathlib.Logic.Function.Basic
import Mathlib.Data.List.Basic
import BadIo.Machine

namespace BadIo.FunctionView

/-- A living callable; the objects that have lived so far are numbered. -/
structure Object (V : Type) where
  id : ℕ
  ty : ℕ
  value : V
  deriving DecidableEq

structure View where
  data : Option ℕ := none
  func : Option ℕ := none
  deriving DecidableEq

inductive Op (ι V : Type) where
  | construct (n : ι)
  | bind (n : ι) (p : ℕ)
  | copyConstruct (n m : ι)
  | moveConstruct (n m : ι)
  | copyAssign (n m : ι)
  | moveAssign (n m : ι)
  | swap (n m : ι)
  | destroy (n : ι)
  | create (p ty : ℕ) (value : V)
  | assign (p : ℕ) (value : V)
  | remove (p : ℕ)
  deriving DecidableEq

variable {ι V : Type}

/-- `refs` is what the views stand for: the callable that each of them refers to. -/
structure State (ι V : Type) where
  views : ι → Option View
  memory : ℕ → Option (Object V)
  objects : List (ℕ × ℕ)
  refs : ι → Option (Option ℕ)

def State.new : State ι V := ⟨fun _ => none, fun _ => none, [], fun _ => none⟩

inductive Called (V : Type) where
  | badFunctionCall
  | ran (o : Object V)
  /-- `m_func` takes something for a callable of its type that is none. -/
  | undefined
  deriving DecidableEq

def State.call (s : State ι V) (v : View) : Called V :=
  match v.func, v.data with
  | none, _ => .badFunctionCall
  | some ty, some p =>
    match s.memory p with
    | some o => if o.ty = ty then .ran o else .undefined
    | none => .undefined
  | some _, none => .undefined

def View.isSet (v : View) : Bool := v.func.isSome

variable [DecidableEq ι]

namespace State

def setView (s : State ι V) (n : ι) (v : Option View) (r : Option (Option ℕ)) : State ι V :=
  { s with views := Function.update s.views n v, refs := Function.update s.refs n r }

def swapData (views : ι → Option View) (n m : ι) : Option (ι → Option View) := do
  let v ← views n
  let w ← views m
  let views := Function.update views n (some { v with data := w.data })
  let w ← views m
  some (Function.update views m (some { w with data := v.data }))

def swapFunc (views : ι → Option View) (n m : ι) : Option (ι → Option View) := do
  let v ← views n
  let w ← views m
  let views := Function.update views n (some { v with func := w.func })
  let w ← views m
  some (Function.update views m (some { w with func := v.func }))

def swap (s : State ι V) (n m : ι) : Option (State ι V) := do
  let views ← swapData s.views n m
  let views ← swapFunc views n m
  some { s with
    views
    refs := Function.update (Function.update s.refs n (s.refs m)) m (s.refs n) }

end State

/-- The constructor from a callable always takes the branch of its `else`, as
`is_constant_evaluated` is true in the condition of an `if constexpr`.  Both specialisations have
these bodies. -/
def step (s : State ι V) : Op ι V → Option (State ι V)
  | .construct n => if s.views n = none then some (s.setView n (some {}) (some none)) else none
  | .bind n p =>
    if s.views n = none then
      (s.memory p).map fun o => s.setView n (some ⟨some p, some o.ty⟩) (some (some o.id))
    else none
  | .copyConstruct n m =>
    if s.views n = none then (s.views m).map fun v => s.setView n (some v) (s.refs m) else none
  | .moveConstruct n m =>
    if s.views n = none then (s.views m).map fun v =>
      -- both words are exchanged for null pointers
      (s.setView m (some { v with data := none, func := none }) (some none)).setView n
        (some ⟨v.data, v.func⟩) (s.refs m)
    else none
  | .copyAssign n m =>
    if s.views n = none then none
    else (s.views m).map fun v => s.setView n (some v) (s.refs m)
  | .moveAssign n m => s.swap n m
  | .swap n m => s.swap n m
  | .destroy n => (s.views n).map fun _ => s.setView n none none
  | .create p ty value =>
    if s.memory p = none then some { s with
      memory := Function.update s.memory p (some ⟨s.objects.length, ty, value⟩)
      objects := s.objects ++ [(p, ty)] }
    else none
  | .assign p value => (s.memory p).map fun o =>
    { s with memory := Function.update s.memory p (some { o with value }) }
  | .remove p => (s.memory p).map fun _ => { s with memory := Function.update s.memory p none }

def machine (ι V : Type) [DecidableEq ι] : Machine (State ι V) (Op ι V) := ⟨step⟩

/-- A view holds both words or neither, and they are those of the callable it refers to. -/
inductive Matches (objects : List (ℕ × ℕ)) : Option View → Option (Option ℕ) → Prop where
  | absent : Matches objects none none
  | empty : Matches objects (some {}) (some none)
  | bound (id p ty : ℕ) (h : objects[id]? = some (p, ty)) :
      Matches objects (some ⟨some p, some ty⟩) (some (some id))

structure Inv (s : State ι V) : Prop where
  living : ∀ p o, s.memory p = some o → s.objects[o.id]? = some (p, o.ty)
  views : ∀ n, Matches s.objects (s.views n) (s.refs n)

omit [DecidableEq ι] in
theorem new_inv : Inv (.new : State ι V) where
  living _ _ h := nomatch h
  views _ := .absent

section Steps

variable {s s' : State ι V} {op : Op ι V}

theorem Inv.setView (h : Inv s) {v : Option View} {r : Option (Option ℕ)}
    (hm : Matches s.objects v r) (n : ι) : Inv (s.setView n v r) where
  living := h.living
  views m := by
    change Matches s.objects (Function.update s.views n v m) (Function.update s.refs n r m)
    by_cases hmn : m = n
    · subst hmn
      rw [Function.update_self, Function.update_self]
      exact hm
    · rw [Function.update_of_ne hmn, Function.update_of_ne hmn]
      exact h.views m

omit [DecidableEq ι] in
theorem Inv.matches_of_view (h : Inv s) {n : ι} {v : View} (hv : s.views n = some v) :
    Matches s.objects (some v) (s.refs n) := hv ▸ h.views n

theorem swap_eq_some {n m : ι} (h : s.swap n m = some s') :
    ∃ v w, s.views n = some v ∧ s.views m = some w ∧
      s' = (s.setView n (some w) (s.refs m)).setView m (some v) (s.refs n) := by
  cases hv : s.views n with
  | none => simp [State.swap, State.swapData, hv] at h
  | some v =>
    cases hw : s.views m with
    | none => simp [State.swap, State.swapData, hv, hw] at h
    | some w =>
      refine ⟨v, w, rfl, rfl, ?_⟩
      by_cases hnm : n = m
      · subst hnm
        rw [hv] at hw
        cases hw
        simp only [State.swap, State.swapData, State.swapFunc, hv, Option.bind_eq_bind,
          Option.bind_some, Function.update_self, Function.update_idem, Option.some.injEq] at h
        rw [← h, State.setView, State.setView, Function.update_idem, Function.update_idem]
      · simp only [State.swap, State.swapData, State.swapFunc, hv, hw, Option.bind_eq_bind,
          Option.bind_some, Function.update_self, Function.update_of_ne hnm,
          Function.update_of_ne (Ne.symm hnm), Option.some.injEq] at h
        rw [← h, State.setView, State.setView, Function.update_comm hnm,
          Function.update_idem, Function.update_comm (Ne.symm hnm), Function.update_idem]

omit [DecidableEq ι] in
theorem Matches.append {objects : List (ℕ × ℕ)} {v : Option View} {r : Option (Option ℕ)}
    (h : Matches objects v r) (o : ℕ × ℕ) : Matches (objects ++ [o]) v r := by
  cases h with
  | absent => exact .absent
  | empty => exact .empty
  | bound id p ty h =>
    refine .bound id p ty ?_
    rw [List.getElem?_append_left (List.getElem?_eq_some_iff.mp h).1, h]

omit [DecidableEq ι] in
theorem Inv.memory (h : Inv s) {p : ℕ} {x : Option (Object V)}
    (hx : ∀ o, x = some o → s.objects[o.id]? = some (p, o.ty)) :
    Inv { s with memory := Function.update s.memory p x } where
  living q o ho := by
    change Function.update s.memory p x q = some o at ho
    by_cases hqp : q = p
    · subst hqp
      rw [Function.update_self] at ho
      exact hx o ho
    · rw [Function.update_of_ne hqp] at ho
      exact h.living q o ho
  views := h.views

omit [DecidableEq ι] in
theorem Inv.create (h : Inv s) (p ty : ℕ) (value : V) : Inv { s with
    memory := Function.update s.memory p (some ⟨s.objects.length, ty, value⟩)
    objects := s.objects ++ [(p, ty)] } := by
  refine Inv.memory (s := { s with objects := s.objects ++ [(p, ty)] }) ⟨?_, ?_⟩ ?_
  · intro q o ho
    have hq := h.living q o ho
    change (s.objects ++ [(p, ty)])[o.id]? = _
    rw [List.getElem?_append_left (List.getElem?_eq_some_iff.mp hq).1, hq]
  · exact fun n => (h.views n).append (p, ty)
  · rintro o ho
    cases ho
    exact List.getElem?_concat_length

theorem step_inv (hs : Inv s) (h : (machine ι V).step s op = some s') : Inv s' := by
  change step s op = some s' at h
  cases op with
  | construct n =>
    simp only [step, Option.ite_none_right_eq_some, Option.some.injEq] at h
    obtain ⟨-, rfl⟩ := h
    exact hs.setView .empty n
  | bind n p =>
    simp only [step, Option.ite_none_right_eq_some] at h
    obtain ⟨o, ho, rfl⟩ := Option.map_eq_some_iff.mp h.2
    exact hs.setView (.bound o.id p o.ty (hs.living p o ho)) n
  | copyConstruct n m =>
    simp only [step, Option.ite_none_right_eq_some] at h
    obtain ⟨v, hv, rfl⟩ := Option.map_eq_some_iff.mp h.2
    exact hs.setView (hs.matches_of_view hv) n
  | moveConstruct n m =>
    simp only [step, Option.ite_none_right_eq_some] at h
    obtain ⟨v, hv, rfl⟩ := Option.map_eq_some_iff.mp h.2
    exact (hs.setView .empty m).setView (hs.matches_of_view hv) n
  | copyAssign n m =>
    simp only [step, Option.ite_none_left_eq_some] at h
    obtain ⟨v, hv, rfl⟩ := Option.map_eq_some_iff.mp h.2
    exact hs.setView (hs.matches_of_view hv) n
  | moveAssign n m | swap n m =>
    obtain ⟨v, w, hv, hw, rfl⟩ := swap_eq_some h
    exact (hs.setView (hs.matches_of_view hw) n).setView (hs.matches_of_view hv) m
  | destroy n =>
    obtain ⟨v, hv, rfl⟩ := Option.map_eq_some_iff.mp h
    exact hs.setView .absent n
  | create p ty value =>
    simp only [step, Option.ite_none_right_eq_some, Option.some.injEq] at h
    obtain ⟨-, rfl⟩ := h
    exact hs.create p ty value
  | assign p value =>
    obtain ⟨o, ho, rfl⟩ := Option.map_eq_some_iff.mp h
    refine hs.memory fun o' ho' => ?_
    cases ho'
    exact hs.living p o ho
  | remove p =>
    obtain ⟨o, -, rfl⟩ := Option.map_eq_some_iff.mp h
    exact hs.memory nofun

omit [DecidableEq ι] in
theorem call_bound (s : State ι V) (p ty : ℕ) : s.call ⟨some p, some ty⟩ =
    match s.memory p with
    | some o => if o.ty = ty then .ran o else .undefined
    | none => .undefined := rfl

/-- After every run of constructions, copies, moves, assignments and swaps of any number of
views, over callables that come and go: a view is null exactly if it refers to nothing, and
then a call throws `bad_function_call`; and a call runs the callable that the view refers to, with
its present value, exactly if that is still alive. -/
theorem call_right_iff {ops : List (Op ι V)} (h : (machine ι V).run .new ops = some s) {n : ι}
    {r : Option ℕ} (hr : s.refs n = some r) : ∃ v, s.views n = some v ∧
      (v.isSet = false ↔ r = none) ∧ (s.call v = .badFunctionCall ↔ r = none) ∧
      ∀ o, r = some o.id → (s.call v = .ran o ↔ ∃ p, s.memory p = some o) := by
  have hs : Inv s := Machine.invariant_of_step (fun _ _ _ hs hstep => step_inv hs hstep) new_inv h
  have hm := hs.views n
  rw [hr] at hm
  generalize hv : s.views n = x at hm
  cases hm with
  | empty => exact ⟨_, rfl, iff_of_true rfl rfl, iff_of_true rfl rfl, fun _ h => nomatch h⟩
  | bound id p ty hid =>
    refine ⟨_, rfl, iff_of_false nofun nofun, iff_of_false ?_ nofun, ?_⟩
    · rw [call_bound]
      split
      · split <;> exact nofun
      · exact nofun
    · intro o ho
      cases ho
      rw [call_bound]
      constructor
      · intro hcall
        split at hcall
        · rename_i o' ho'
          split at hcall
          · cases hcall
            exact ⟨p, ho'⟩
          · cases hcall
        · cases hcall
      · rintro ⟨q, hq⟩
        have hplace := (hs.living q o hq).symm.trans hid
        cases hplace
        simp only [hq, if_pos]

end Steps

/-- A view of a temporary: the object is gone when the view is called, and another one of the
same type lives at its address. -/
def temporaryRun : List (Op ℕ ℕ) :=
  [.create 64 1 5, .bind 0 64, .remove 64, .create 64 1 6, .copyConstruct 1 0]

theorem call_right_iff_temporary : ∃ s, (machine ℕ ℕ).run .new temporaryRun = some s ∧
    ∃ v, s.views 1 = some v ∧ s.call v = .ran ⟨1, 1, 6⟩ ∧ s.call v ≠ .ran ⟨0, 1, 5⟩ := by
  obtain ⟨s, h, hr, hv, hgone⟩ : ∃ s, (machine ℕ ℕ).run .new temporaryRun = some s ∧
      s.refs 1 = some (some 0) ∧ (∀ v, s.views 1 = some v → s.call v = .ran ⟨1, 1, 6⟩) ∧
      ∀ p, s.memory p = some ⟨0, 1, 5⟩ → False := by
    refine ⟨_, rfl, rfl, fun v hv => by cases hv; rfl, fun p hp => ?_⟩
    simp [State.new, State.setView, Function.update_apply] at hp
  obtain ⟨v, hview, -, -, hcall⟩ := call_right_iff h hr
  refine ⟨s, h, v, hview, hv v hview, fun hran => ?_⟩
  obtain ⟨p, hp⟩ := (hcall ⟨0, 1, 5⟩ rfl).mp hran
  exact hgone p hp

end BadIo.FunctionView
