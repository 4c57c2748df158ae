import BadIo.UniqueFunction.Basic

namespace BadIo.UniqueFunction

variable {ι V F : Type} [DecidableEq ι]

/-- The objects without their storage; `none` is a name without an object, `some none` an empty
object. -/
structure Table (ι V F : Type) where
  entries : ι → Option (Option (Callable V F))
  history : List (Event V F)

def Callable.after : Callable V F → V → Callable V F
  | .object ty _, v => .object ty v
  | .function f, _ => .function f

namespace Table

def set (t : Table ι V F) (n : ι) (e : Option (Option (Callable V F))) : Table ι V F :=
  { t with entries := Function.update t.entries n e }

def record (t : Table ι V F) (e : Event V F) : Table ι V F := { t with history := t.history ++ [e] }

def add (t : Table ι V F) (n : ι) (c : Option (Callable V F)) : Option (Table ι V F) :=
  match t.entries n with
  | none => some (t.set n (some c))
  | some _ => none

def exchange (t : Table ι V F) (n m : ι) : Option (Table ι V F) :=
  match t.entries n, t.entries m with
  | some c, some d => if n = m then none else some ((t.set n (some d)).set m (some c))
  | _, _ => none

def step (t : Table ι V F) : Op ι V F → Option (Table ι V F)
  | .construct n => t.add n none
  | .emplace n ty value => t.add n (some (.object ty value))
  | .fromPointer n f => t.add n (some (.function f))
  | .moveConstruct n m =>
    match t.entries n, t.entries m with
    | none, some c => some ((t.set n (some c)).set m (some none))
    | _, _ => none
  | .moveAssign n m => t.exchange n m
  | .swap n m => t.exchange n m
  | .call n after =>
    match t.entries n with
    | some (some c) => some ((t.set n (some (some (c.after after)))).record (.ran c))
    | _ => none
  | .toBool n =>
    match t.entries n with
    | some c => some (t.record (.isSet c.isSome))
    | none => none
  | .destroy n =>
    match t.entries n with
    | some _ => some (t.set n none)
    | none => none

def machine : Machine (Table ι V F) (Op ι V F) := ⟨step⟩

def init : Table ι V F := ⟨fun _ => none, []⟩

@[simp] theorem set_self (t : Table ι V F) (n : ι) (e : Option (Option (Callable V F))) :
    (t.set n e).entries n = e :=
  Function.update_self ..

theorem set_ne (t : Table ι V F) {n m : ι} (h : m ≠ n) (e : Option (Option (Callable V F))) :
    (t.set n e).entries m = t.entries m :=
  Function.update_of_ne h ..

theorem set_eq_iff (t : Table ι V F) {n m : ι} {e x : Option (Option (Callable V F))} :
    (t.set n e).entries m = x ↔ m = n ∧ e = x ∨ m ≠ n ∧ t.entries m = x := by
  by_cases h : m = n
  · subst h
    simp
  · simp [h, t.set_ne h]

@[simp] theorem set_set (t : Table ι V F) (n : ι) (e e' : Option (Option (Callable V F))) :
    (t.set n e).set n e' = t.set n e' := by
  rw [set, set, set, Function.update_idem]

theorem add_eq_some {t t' : Table ι V F} {n : ι} {c : Option (Callable V F)} :
    t.add n c = some t' ↔ t.entries n = none ∧ t' = t.set n (some c) := by
  unfold add
  split
  · rename_i h
    simp [h, eq_comm]
  · rename_i h
    simp [h]

theorem exchange_eq_some {t t' : Table ι V F} {n m : ι} :
    t.exchange n m = some t' ↔ n ≠ m ∧ ∃ c d, t.entries n = some c ∧ t.entries m = some d ∧
      t' = (t.set n (some d)).set m (some c) := by
  unfold exchange
  split
  · rename_i c d hc hd
    by_cases hnm : n = m
    · simp [hnm]
    · rw [if_neg hnm, hc, hd]
      constructor
      · intro h
        exact ⟨hnm, c, d, rfl, rfl, (Option.some.inj h).symm⟩
      · rintro ⟨-, c', d', hc', hd', rfl⟩
        obtain rfl := Option.some.inj hc'
        obtain rfl := Option.some.inj hd'
        rfl
  · rename_i h
    constructor
    · intro hn
      cases hn
    · rintro ⟨-, c, d, hc, hd, -⟩
      exact (h c d hc hd).elim

end Table

end BadIo.UniqueFunction
