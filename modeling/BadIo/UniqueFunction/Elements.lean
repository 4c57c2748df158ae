import BadIo.UniqueFunction.Soundness

namespace BadIo.UniqueFunction

inductive Name (κ : Type) where
  | element (k : ℕ)
  | f (x : κ)
  deriving DecidableEq

variable {κ V F : Type}

def create (n : Name κ) : Callable V F → Op (Name κ) V F
  | .object ty value => .emplace n ty value
  | .function f => .fromPointer n f

theorem Accounted.nothing_lives {ι : Type} {u : State ι V F} (h : Accounted u)
    (hnone : ∀ n, u.objects n = none) (n : ι) (k : ℕ) :
    u.memory (.object n) = none ∧ u.memory (.heap k) = none := by
  constructor
  · by_contra hmem
    obtain ⟨o, a, ho, -⟩ := h.storage n hmem
    rw [hnone n] at ho
    cases ho
  · by_contra hmem
    obtain ⟨m, ⟨o, ho, -⟩, -⟩ := h.heap k hmem
    rw [hnone m] at ho
    cases ho

/-- Wherever things are put, the objects follow a run of the table. -/
theorem exists_refining_run {ι : Type} [DecidableEq ι] [DecidableEq F] (address : F → ℕ)
    {ops : List (Op ι V F × Placement)} {t : Table ι V F}
    (hplaced : (machine address).Before (Placed address) State.init ops)
    (h : Table.machine.run Table.init (ops.map Prod.fst) = some t) :
    ∃ u, (machine address).run State.init ops = some u ∧ Refines address t u :=
  Machine.run_of_lockstep (M := Table.machine) (N := machine address) (R := Refines address)
    (P := Placed address) (f := Prod.fst) (fun _ _ _ _ hr hp ht => step_refines hr hp ht)
    (refines_init address) hplaced h

def CallsEmpty {ι : Type} (t : Table ι V F) (op : Op ι V F) : Prop :=
  ∃ n after, op = .call n after ∧ t.entries n = some none

theorem Refines.call_empty {ι : Type} [DecidableEq ι] [DecidableEq F] {address : F → ℕ}
    {t : Table ι V F} {u : State ι V F} (h : Refines address t u) {op : Op ι V F}
    (hop : CallsEmpty t op) (w : Placement) : (machine address).step u (op, w) = none := by
  obtain ⟨n, after, rfl, hn⟩ := hop
  obtain ⟨o, ho, hh⟩ := h.present n none hn
  change call u n after = none
  cases hh with
  | remote base st c hr hmem =>
    cases hr with
    | empty => rw [call, ho]; rfl

theorem run_eq_none {ι : Type} [DecidableEq ι] [DecidableEq F] (address : F → ℕ)
    {ops : List (Op ι V F × Placement)}
    (hplaced : (machine address).Before (Placed address) State.init ops)
    (h : Table.machine.Meets CallsEmpty Table.init (ops.map Prod.fst)) :
    (machine address).run State.init ops = none :=
  h.stuck_of_lockstep (N := machine address) (R := Refines address) (P := Placed address)
    (f := Prod.fst) (fun _ _ _ _ hr hp ht => step_refines hr hp ht)
    (fun _ _ b hr hb => hr.call_empty hb b.2) (refines_init address) hplaced

variable [DecidableEq κ]

namespace Table

variable (t : Table (Name κ) V F)

theorem run_one (op : Op (Name κ) V F) : machine.run t [op] = t.step op := by
  rw [Machine.run_cons]
  exact Option.bind_fun_some _

theorem step_create (n : Name κ) (c : Callable V F) :
    t.step (create n c) = t.add n (some c) := by
  cases c <;> rfl

variable (e : Option (Option (Callable V F))) {j k : ℕ} {x y : κ}

theorem set_element_f : (t.set (.element k) e).entries (.f x) = t.entries (.f x) :=
  t.set_ne (n := .element k) (m := .f x) nofun e

theorem set_f_element : (t.set (.f x) e).entries (.element k) = t.entries (.element k) :=
  t.set_ne (n := .f x) (m := .element k) nofun e

theorem set_element_ne (h : j ≠ k) :
    (t.set (.element k) e).entries (.element j) = t.entries (.element j) :=
  t.set_ne (fun heq => h (Name.element.inj heq)) e

theorem set_f_ne (h : x ≠ y) : (t.set (.f y) e).entries (.f x) = t.entries (.f x) :=
  t.set_ne (fun heq => h (Name.f.inj heq)) e

variable {t}

theorem step_assign {c d : Option (Callable V F)} (hc : t.entries (.f x) = some c)
    (hd : t.entries (.element k) = some d) : t.step (.moveAssign (.f x) (.element k)) =
      some ((t.set (.f x) (some d)).set (.element k) (some c)) :=
  exchange_eq_some.mpr ⟨nofun, c, d, hc, hd, rfl⟩

theorem run_take {c : Option (Callable V F)} (hx : t.entries (.f x) = none)
    (hk : t.entries (.element k) = some c) :
    machine.run t [.construct (.f x), .moveAssign (.f x) (.element k), .destroy (.element k)] =
      some ((t.set (.f x) (some c)).set (.element k) none) := by
  have hconstruct : t.step (.construct (.f x)) = some (t.set (.f x) (some none)) :=
    add_eq_some.mpr ⟨hx, rfl⟩
  have hassign := step_assign (t.set_self (.f x) (some none))
    ((set_f_element t (some none)).trans hk)
  rw [set_set] at hassign
  rw [Machine.run_cons]
  change (t.step (.construct (.f x))).bind _ = _
  rw [hconstruct, Option.bind_some, Machine.run_cons]
  change ((t.set (.f x) (some none)).step (.moveAssign (.f x) (.element k))).bind _ = _
  rw [hassign, Option.bind_some, run_one, step, set_self]
  exact congrArg some (set_set _ _ _ _)

theorem run_move {n m : Name κ} {c : Option (Callable V F)} (hn : t.entries n = none)
    (hm : t.entries m = some c) : machine.run t [.moveConstruct n m, .destroy m] =
      some ((t.set n (some c)).set m none) := by
  rw [Machine.run_cons]
  change (t.step (.moveConstruct n m)).bind _ = _
  rw [step, hn, hm]
  change machine.run _ [(.destroy m : Op (Name κ) V F)] = _
  rw [run_one, step, set_self]
  exact congrArg some (set_set _ _ _ _)

end Table

end BadIo.UniqueFunction
