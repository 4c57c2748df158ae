import BadIo.UniqueFunction.Operations

namespace BadIo.UniqueFunction

variable {ι V F : Type}

def State.callable [DecidableEq ι] (s : State ι V F) (n : ι) : Option (Option (Callable V F)) := do
  let o ← s.objects n
  match o.state.call, o.state.data with
  | none, _ => some none
  | some (.object ty), some p => do
    let slot ← s.deref p ty
    let value ← slot.value
    some (some (.object ty value))
  | some .function, some ⟨.code f, _⟩ => some (some (.function f))
  | _, _ => none

def Object.PlacedInline (o : Object ι F) : Prop := ∃ ty, o.state.vtable = some ⟨ty, false⟩

def Object.DataInStorage (o : Object ι F) : Prop :=
  ∃ p, o.state.data = some p ∧ InStorage o.base p.address

/-- The words of an object belong to one callable. -/
structure Sound (s : State ι V F) (n : ι) (o : Object ι F) : Prop where
  inline_iff : o.DataInStorage ↔ o.PlacedInline
  offset : ∀ ty, o.state.vtable = some ⟨ty, false⟩ → ∃ off, ty.InlineAt off ∧ ty.align ∣ off ∧
    o.state.data = some ⟨.object n, o.base + off⟩
  vtable : ∀ vt, o.state.vtable = some vt → vt.heap = vt.ty.inlineOffset.isNone ∧
    o.state.call = some (.object vt.ty) ∧ ∃ p value, o.state.data = some p ∧
      p.block.isHeap = vt.heap ∧ s.memory p.block = some ⟨p.address, vt.ty, some value⟩
  noVtable : o.state.vtable = none → o.state = {} ∨
    ∃ f a, o.state.call = some .function ∧ o.state.data = some ⟨.code f, a⟩

/-- Whatever lives in a storage or on the heap is held by exactly one object. -/
structure Accounted (s : State ι V F) : Prop where
  storage : ∀ n, s.memory (.object n) ≠ none →
    ∃ o a, s.objects n = some o ∧ o.state.data = some ⟨.object n, a⟩
  heap : ∀ k, s.memory (.heap k) ≠ none → ∃! n, ∃ o, s.objects n = some o ∧ o.OwnsHeap k
  tmpBuf : s.memory .tmpBuf = none

section Related

variable {address : F → ℕ} {t : Table ι V F} {s : State ι V F}

theorem sound_of_vtable_none {n : ι} {o : Object ι F} (hv : o.state.vtable = none)
    (hdata : ¬ o.DataInStorage) (hc : o.state = {} ∨
      ∃ f a, o.state.call = some .function ∧ o.state.data = some ⟨.code f, a⟩) : Sound s n o := by
  have hno : ∀ vt, o.state.vtable ≠ some vt := by
    intro vt hvt
    rw [hv] at hvt
    cases hvt
  refine ⟨⟨fun h => (hdata h).elim, ?_⟩, fun ty hty => (hno _ hty).elim,
    fun vt hvt => (hno vt hvt).elim, fun _ => hc⟩
  rintro ⟨ty, hty⟩
  exact (hno _ hty).elim

theorem Holds.sound {n : ι} {o : Object ι F} {c : Option (Callable V F)}
    (h : Holds address s n o c) (hclear : Clear address s o.base) : Sound s n o := by
  cases h with
  | inline base ty value off hoff hmem =>
    have hin := inlineOffset_spec hoff
    refine ⟨?_, ?_, ?_, ?_⟩
    · have hstorage := isInline_inline (ι := ι) (F := F) hin n base
      rw [inlineObject, isInline_iff] at hstorage
      exact ⟨fun _ => ⟨ty, rfl⟩, fun _ => ⟨_, rfl, hstorage⟩⟩
    · rintro ty' hty
      cases hty
      refine ⟨off, hin, ?_, rfl⟩
      exact (Nat.zero_add off ▸ hin.aligned 0 ⟨0, rfl⟩ : ty.align ∣ off)
    · rintro vt hvt
      cases hvt
      exact ⟨by simp [hoff], rfl, _, value, rfl, rfl, hmem⟩
    · intro hnone
      cases hnone
  | remote base st c hr hobj =>
    -- data in the storage would be taken for an inline callable
    have hdata : ¬ (⟨base, st⟩ : Object ι F).DataInStorage := by
      rintro ⟨p, hp, hin⟩
      have hfalse := isInline_remote hr hclear
      obtain ⟨vt, call, data⟩ := st
      obtain rfl : data = some p := hp
      rw [(isInline_iff base vt call p).mpr hin] at hfalse
      cases hfalse
    cases hr with
    | empty => exact sound_of_vtable_none rfl hdata (.inl rfl)
    | function f => exact sound_of_vtable_none rfl hdata (.inr ⟨f, _, rfl, rfl⟩)
    | heap ty value k a hty hmem =>
      refine ⟨⟨fun h => (hdata h).elim, ?_⟩, ?_, ?_, ?_⟩
      · rintro ⟨ty', hty'⟩
        cases hty'
      · rintro ty' hty'
        cases hty'
      · rintro vt hvt
        cases hvt
        exact ⟨by simp [hty], rfl, _, value, rfl, rfl, hmem⟩
      · intro hnone
        cases hnone

theorem Refines.sound (h : Refines address t s) {n : ι} {o : Object ι F}
    (ho : s.objects n = some o) : Sound s n o := by
  obtain ⟨c, -, hh⟩ := h.exists_entry ho
  exact hh.sound (h.clear n o ho)

theorem Refines.accounted (h : Refines address t s) : Accounted s := by
  refine ⟨?_, ?_, h.tmpBuf⟩
  · intro n hn
    cases hc : t.entries n with
    | none => exact (hn (h.absent n hc).2).elim
    | some c =>
      obtain ⟨o, ho, hh⟩ := h.present n c hc
      cases hh with
      | inline base ty value off hoff hmem => exact ⟨_, _, ho, rfl⟩
      | remote base st c hr hobj => exact (hn hobj).elim
  · intro k hk
    obtain ⟨n, o, ho, hown⟩ := h.owned k hk
    refine ⟨n, ⟨o, ho, hown⟩, ?_⟩
    rintro m ⟨o', ho', hown'⟩
    exact h.owner m n o' o k ho' ho hown' hown

variable [DecidableEq ι]

theorem Holds.callable {n : ι} {o : Object ι F} {c : Option (Callable V F)}
    (ho : s.objects n = some o) (h : Holds address s n o c) : s.callable n = some c := by
  cases h with
  | inline base ty value off hoff hmem =>
    have hderef : s.deref ⟨.object n, base + off⟩ ty = some ⟨base + off, ty, some value⟩ :=
      deref_eq hmem
    simp [State.callable, ho, inlineObject, hderef]
  | remote base st c hr hobj =>
    cases hr with
    | empty => simp [State.callable, ho]
    | function f => simp [State.callable, ho]
    | heap ty value k a hty hmem =>
      have hderef : s.deref ⟨.heap k, a⟩ ty = some ⟨a, ty, some value⟩ := deref_eq hmem
      simp [State.callable, ho, hderef]

/-- The table can be read off the objects. -/
theorem Refines.callable (h : Refines address t s) (n : ι) : s.callable n = t.entries n := by
  cases hc : t.entries n with
  | none => simp [State.callable, (h.absent n hc).1]
  | some c =>
    obtain ⟨o, ho, hh⟩ := h.present n c hc
    exact hh.callable ho

end Related

theorem refines_init (address : F → ℕ) :
    Refines address (Table.init : Table ι V F) State.init := by
  refine ⟨fun n _ => ⟨rfl, rfl⟩, ?_, ?_, ?_, ?_, fun k hk => (hk rfl).elim, rfl, rfl⟩
  · intro n c hc
    cases hc
  · intro n o ho
    cases ho
  · intro n o ho
    cases ho
  · intro n m o o' k ho
    cases ho

variable [DecidableEq ι] [DecidableEq F]

/-- Wherever things are put, the code follows every run of the table without a forbidden
step, to a state that shows the same and is sound. -/
theorem follows_table (address : F → ℕ) {as : List (Op ι V F × Placement)} {t : Table ι V F}
    (hplaced : (machine address).Before (Placed address) State.init as)
    (h : Table.machine.run Table.init (as.map Prod.fst) = some t) :
    ∃ s, (machine address).run State.init as = some s ∧ s.history = t.history ∧
      (∀ n, s.callable n = t.entries n) ∧
      (∀ n, (s.objects n).isSome = (t.entries n).isSome) ∧
      (∀ n o, s.objects n = some o → Sound s n o) ∧ Accounted s := by
  obtain ⟨s, hs, hr⟩ := Machine.run_of_lockstep (M := Table.machine) (N := machine address)
    (R := Refines address) (P := Placed address) (f := Prod.fst)
    (fun t s a t' hr hp ht => step_refines hr hp ht) (refines_init address) hplaced h
  refine ⟨s, hs, hr.history, hr.callable, fun n => ?_, fun n o => hr.sound, hr.accounted⟩
  cases hc : t.entries n with
  | none =>
    rw [(hr.absent n hc).1]
    rfl
  | some c =>
    obtain ⟨o, ho, -⟩ := hr.present n c hc
    rw [ho]
    rfl

section SwapRun

def smallType : CallableType := ⟨0, 8, 3, true, by decide⟩

def largeType : CallableType := ⟨1, 100, 3, true, by decide⟩

def swapRun : List (Op ℕ ℕ Bool × Placement) :=
  [(.emplace 0 smallType 5, ⟨64, 0, 512, 0⟩), (.emplace 1 largeType 6, ⟨128, 0, 1024, 0⟩),
    (.swap 0 1, ⟨0, 0, 0, 192⟩), (.call 0 7, ⟨0, 0, 0, 0⟩)]

theorem swapRun_placed :
    (machine fun _ => 8).Before (Placed fun _ => 8) State.init swapRun := by
  refine ⟨⟨⟨⟨1, rfl⟩, ?_, fun _ => by decide⟩, rfl, ⟨64, rfl⟩, ?_, by decide⟩, ?_⟩
  · intro k slot hslot
    cases hslot
  · intro m o ho
    cases ho
  intro s hs
  cases hs
  refine ⟨⟨⟨⟨2, rfl⟩, ?_, fun _ => by decide⟩, rfl, ⟨128, rfl⟩, ?_, by decide⟩, ?_⟩
  · intro k slot hslot
    cases hslot
  · intro m o ho
    cases m with
    | zero =>
      cases ho
      decide
    | succ m => cases ho
  exact fun s _ => ⟨⟨3, rfl⟩, fun s _ => ⟨trivial, fun s _ => trivial⟩⟩

theorem follows_table_swapRun : ∃ s, (machine fun _ => 8).run State.init swapRun = some s ∧
    s.history = [.ran (.object largeType 6)] ∧
    s.callable 1 = some (some (.object smallType 5)) ∧ Accounted s := by
  obtain ⟨s, hs, hhistory, hcallable, -, -, haccounted⟩ :=
    follows_table (fun _ => 8) swapRun_placed rfl
  exact ⟨s, hs, hhistory, hcallable 1, haccounted⟩

end SwapRun

end BadIo.UniqueFunction
