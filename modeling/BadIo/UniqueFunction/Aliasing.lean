import BadIo.UniqueFunction.Soundness

namespace BadIo.UniqueFunction

variable {ι V F : Type} [DecidableEq ι]

def Op.alias : Op ι V F → Option ι
  | .swap n m => if n = m then some n else none
  | .moveAssign n m => if n = m then some n else none
  | _ => none

namespace Table

/-- An exchange of an object with itself changes nothing. -/
def aliasingStep (t : Table ι V F) (op : Op ι V F) : Option (Table ι V F) :=
  match op.alias with
  | some n => if (t.entries n).isSome then some t else none
  | none => t.step op

def aliasing : Machine (Table ι V F) (Op ι V F) := ⟨aliasingStep⟩

theorem aliasingStep_alias {t t' : Table ι V F} {op : Op ι V F} {n : ι} (hn : op.alias = some n)
    (h : t.aliasingStep op = some t') : t' = t ∧ ∃ c, t.entries n = some c := by
  simp only [aliasingStep, hn, Option.ite_none_right_eq_some] at h
  exact ⟨(Option.some.inj h.2).symm, Option.isSome_iff_exists.mp h.1⟩

theorem aliasingStep_other {t : Table ι V F} {op : Op ι V F} (hn : op.alias = none) :
    t.aliasingStep op = t.step op := by
  simp only [aliasingStep, hn]

end Table

theorem State.setObject_eq_self {s : State ι V F} {n : ι} {o : Object ι F}
    (ho : s.objects n = some o) : s.setObject n (some o) = s := by
  rw [State.setObject, ← ho, Function.update_eq_self]

theorem swapOther_self {s : State ι V F} {n : ι} {o : Object ι F} (ho : s.objects n = some o) :
    swapOther s n n = some s := by
  have hsame : s.setObject n (some ⟨o.base, ⟨o.state.vtable, o.state.call, o.state.data⟩⟩) = s :=
    State.setObject_eq_self ho
  simp only [swapOther, State.swapVtable, State.swapCall, State.swapData, ho, hsame,
    Option.bind_eq_bind, Option.bind_some]

variable [DecidableEq F]

/-- Nothing is lost: each object holds the callable that it held, and what lives is held. -/
structure Kept (s s' : State ι V F) : Prop where
  callable : ∀ n, s'.callable n = s.callable n
  objects : ∀ n, (s'.objects n).isSome = (s.objects n).isSome
  history : s'.history = s.history
  accounted : Accounted s'

/-- An exchange of an object with itself takes no forbidden step and loses nothing. -/
def AliasingRight (address : F → ℕ) (s : State ι V F) (a : Op ι V F × Placement) : Prop :=
  a.1.alias ≠ none → ∃ s', step address s a = some s' ∧ Kept s s'

def NotInline (s : State ι V F) (a : Op ι V F × Placement) : Prop :=
  ∀ n o, a.1.alias = some n → s.objects n = some o → o.isInline = false

section Self

variable {s : State ι V F} {n : ι} {o : Object ι F}

theorem step_alias {address : F → ℕ} {a : Op ι V F × Placement} (h : a.1.alias = some n) :
    step address s a = swap a.2.tmpBuf s n n := by
  obtain ⟨op, w⟩ := a
  cases op with
  | swap m k =>
    obtain ⟨rfl, rfl⟩ : m = k ∧ m = n := by simpa only [Op.alias, Option.ite_none_right_eq_some,
      Option.some.injEq] using h
    rfl
  | moveAssign m k =>
    obtain ⟨rfl, rfl⟩ : m = k ∧ m = n := by simpa only [Op.alias, Option.ite_none_right_eq_some,
      Option.some.injEq] using h
    rfl
  | _ => cases h

theorem swap_self_other (ho : s.objects n = some o) (h : o.isInline = false) (tmpBuf : ℕ) :
    swap tmpBuf s n n = some s := by
  rw [← swapOther_self ho]
  simp [swap, swapBody, ho, h]

theorem moveConstruct_of_empty {vt : VTable} {tmpBuf : ℕ} {lhs rhs : Pointer ι F}
    (h : s.memory rhs.block = none) : vt.moveConstruct tmpBuf s lhs rhs = none := by
  simp [VTable.moveConstruct, State.deref, h]

theorem swap_self_inline {base tmpBuf off : ℕ} {ty : CallableType} {value : V}
    (ho : s.objects n = some (inlineObject n base ty off))
    (hmem : s.memory (.object n) = some ⟨base + off, ty, some value⟩)
    (htmp : s.memory .tmpBuf = none) (hoff : ty.InlineAt off) (hat : sizeofObject ∣ tmpBuf) :
    swap tmpBuf s n n = none := by
  -- the slot that the third call moves from is the one that the second call destroyed
  have hlo := hoff.lower
  have htmpAddr : tmpBuf + (sizeofVirtualState + (base + off - (base + sizeofVirtualState))) =
      tmpBuf + off := by
    omega
  have hinline : swap tmpBuf s n n = swapInline tmpBuf s n n := by
    simp [swap, swapBody, ho, isInline_inline hoff]
  obtain ⟨s₁, hmove, hdestroy⟩ := relocate s tmpBuf ⟨ty, false⟩ ⟨.object n, base + off⟩
    ⟨.tmpBuf, tmpBuf + off⟩ hmem htmp (fits_tmpBuf s tmpBuf hoff) (hoff.aligned _ hat) rfl
  rw [hinline, swapInline, ho]
  dsimp only [inlineObject, Object.storage, Option.bind_eq_bind, Option.bind_some]
  rw [htmpAddr, hmove, Option.bind_some, hdestroy, Option.bind_some,
    moveConstruct_of_empty (State.put_self _ _ _), Option.bind_none]

end Self

section Runs

variable {address : F → ℕ} {t t' : Table ι V F} {s s' : State ι V F} {a : Op ι V F × Placement}

omit [DecidableEq F] in
theorem Refines.kept (h : Refines address t s) : Kept s s :=
  ⟨fun _ => rfl, fun _ => rfl, rfl, h.accounted⟩

omit [DecidableEq F] in
theorem placed_alias {n : ι} (hn : a.1.alias = some n) (hw : Placed address s a) :
    sizeofObject ∣ a.2.tmpBuf := by
  obtain ⟨op, w⟩ := a
  cases op with
  | swap m k => exact hw
  | moveAssign m k => exact hw
  | _ => cases hn

theorem step_alias_eq {n : ι} (h : Refines address t s) (hn : a.1.alias = some n)
    (hw : Placed address s a) (ht : t.aliasingStep a.1 = some t') : t' = t ∧
      ∃ o, s.objects n = some o ∧ step address s a = if o.isInline then none else some s := by
  obtain ⟨rfl, c, hc⟩ := Table.aliasingStep_alias hn ht
  obtain ⟨o, ho, hh⟩ := h.present n c hc
  refine ⟨rfl, o, ho, ?_⟩
  have hclear := h.clear n o ho
  rw [step_alias hn]
  cases hh with
  | inline base ty value off hoff hmem =>
    have hin := inlineOffset_spec hoff
    rw [if_pos (isInline_inline hin n base)]
    exact swap_self_inline ho hmem h.tmpBuf hin (placed_alias hn hw)
  | remote base st c hr hobj =>
    have hout := isInline_remote hr hclear
    rw [swap_self_other ho hout, hout]
    rfl

theorem step_aliasing_iff (h : Refines address t s) (hw : Placed address s a)
    (ht : t.aliasingStep a.1 = some t') : AliasingRight address s a ↔ NotInline s a := by
  constructor
  · intro hright n o hn ho
    obtain ⟨-, o', ho', hstep⟩ := step_alias_eq h hn hw ht
    cases ho.symm.trans ho'
    obtain ⟨s', hs, -⟩ := hright (by rw [hn]; exact Option.some_ne_none n)
    by_contra hin
    rw [Bool.not_eq_false] at hin
    rw [hstep, if_pos hin] at hs
    cases hs
  · intro hnot hne
    obtain ⟨n, hn⟩ := Option.ne_none_iff_exists'.mp hne
    obtain ⟨-, o, ho, hstep⟩ := step_alias_eq h hn hw ht
    rw [hnot n o hn ho] at hstep
    exact ⟨s, hstep, h.kept⟩

/-- A step that the code takes is that of the table. -/
theorem aliasing_refines (h : Refines address t s) (hw : Placed address s a)
    (ht : t.aliasingStep a.1 = some t') (hs : step address s a = some s') :
    Refines address t' s' := by
  cases hn : a.1.alias with
  | none =>
    rw [Table.aliasingStep_other hn] at ht
    obtain ⟨s'', hs', hr⟩ := step_refines h hw ht
    cases hs.symm.trans hs'
    exact hr
  | some n =>
    obtain ⟨rfl, o, -, hstep⟩ := step_alias_eq h hn hw ht
    rw [hstep, Option.ite_none_left_eq_some] at hs
    cases hs.2
    exact h

/-- For all runs: objects may be exchanged with themselves exactly if none of them holds its
callable inline. -/
theorem tolerates_aliasing_iff (address : F → ℕ) {as : List (Op ι V F × Placement)}
    {t : Table ι V F} (hplaced : (machine address).Before (Placed address) State.init as)
    (h : Table.aliasing.run Table.init (as.map Prod.fst) = some t) :
    (machine address).Before (AliasingRight address) State.init as ↔
      (machine address).Before NotInline State.init as := by
  apply Machine.before_iff_of_lockstep (M := Table.aliasing) (N := machine address)
    (R := Refines address) (A := Placed address) (f := Prod.fst) ?_ ?_ (refines_init address)
    hplaced h
  · exact fun t s a t' s' hr hw ht hs => aliasing_refines hr hw ht hs
  · exact fun t s a t' hr hw ht => step_aliasing_iff hr hw ht

def selfRun : List (Op ℕ ℕ Bool × Placement) :=
  [(.fromPointer 0 true, ⟨64, 0, 0, 0⟩), (.emplace 1 largeType 6, ⟨128, 0, 1024, 0⟩),
    (.swap 0 0, ⟨0, 0, 0, 192⟩), (.moveAssign 1 1, ⟨0, 0, 0, 192⟩)]

theorem selfRun_placed : (machine fun _ => 8).Before (Placed fun _ => 8) State.init selfRun := by
  refine ⟨⟨⟨1, rfl⟩, ?_, fun _ => by decide⟩, ?_⟩
  · intro k slot hslot
    cases hslot
  intro s hs
  cases hs
  refine ⟨⟨⟨⟨2, rfl⟩, ?_, fun _ => by decide⟩, rfl, ⟨128, rfl⟩, ?_, by decide⟩, ?_⟩
  · intro k slot hslot
    cases hslot
  · intro m o ho
    cases m with
    | zero =>
      cases ho
      decide
    | succ m => cases ho
  exact fun s _ => ⟨⟨3, rfl⟩, fun s _ => ⟨⟨3, rfl⟩, fun s _ => trivial⟩⟩

theorem selfRun_right :
    (machine fun _ => 8).Before (AliasingRight fun _ => 8) State.init selfRun := by
  apply (tolerates_aliasing_iff (fun _ => 8) selfRun_placed rfl).mpr
  refine ⟨?_, fun s hs => ?_⟩
  · intro n o hn
    cases hn
  cases hs
  refine ⟨?_, fun s hs => ?_⟩
  · intro n o hn
    cases hn
  cases hs
  refine ⟨?_, fun s hs => ?_⟩
  · intro n o hn ho
    cases hn
    cases ho
    rfl
  cases hs
  refine ⟨?_, fun s hs => trivial⟩
  intro n o hn ho
  cases hn
  cases ho
  rfl

def inlineRun : List (Op ℕ ℕ Bool × Placement) :=
  [(.emplace 0 smallType 5, ⟨64, 0, 512, 0⟩), (.swap 0 0, ⟨0, 0, 0, 192⟩)]

theorem inlineRun_wrong :
    (machine fun _ => 8).Before (Placed fun _ => 8) State.init inlineRun ∧
      (Table.aliasing.run Table.init (inlineRun.map Prod.fst)).isSome = true ∧
      (machine fun _ => 8).run State.init inlineRun = none ∧
      ¬ (machine fun _ => 8).Before (AliasingRight fun _ => 8) State.init inlineRun := by
  refine ⟨⟨⟨⟨⟨1, rfl⟩, ?_, fun _ => by decide⟩, rfl, ⟨64, rfl⟩, ?_, by decide⟩, ?_⟩, rfl, rfl, ?_⟩
  · intro k slot hslot
    cases hslot
  · intro m o ho
    cases ho
  · exact fun s _ => ⟨⟨3, rfl⟩, fun s _ => trivial⟩
  · rintro ⟨-, h⟩
    obtain ⟨s, hs, -⟩ := (h _ rfl).1 (by decide)
    cases hs

theorem follows_aliasing {as : List (Op ι V F × Placement)}
    (hplaced : (machine address).Before (Placed address) State.init as)
    (hnot : (machine address).Before NotInline State.init as)
    (h : Table.aliasing.run Table.init (as.map Prod.fst) = some t) :
    ∃ s, (machine address).run State.init as = some s ∧ Refines address t s := by
  apply Machine.run_of_lockstep (M := Table.aliasing) _ (refines_init address)
    (hplaced.and hnot) h
  rintro t s a t' hr ⟨hw, hnot⟩ ht
  cases hn : a.1.alias with
  | none =>
    exact step_refines hr hw ((Table.aliasingStep_other hn).symm.trans ht)
  | some n =>
    obtain ⟨rfl, o, ho, hstep⟩ := step_alias_eq hr hn hw ht
    rw [hnot n o hn ho] at hstep
    exact ⟨s, hstep, hr⟩

end Runs

end BadIo.UniqueFunction
