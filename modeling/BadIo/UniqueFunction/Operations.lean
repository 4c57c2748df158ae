import BadIo.UniqueFunction.Refinement

namespace BadIo.UniqueFunction

variable {ι V F : Type}

theorem Holds.isSet {address : F → ℕ} {s : State ι V F} {n : ι} {o : Object ι F}
    {c : Option (Callable V F)} (h : Holds address s n o c) : o.state.call.isSome = c.isSome := by
  cases h with
  | inline => rfl
  | remote base st c hr hmem => cases hr <;> rfl

variable [DecidableEq ι]

@[simp] theorem State.setObject_setObject (s : State ι V F) (n : ι) (o o' : Option (Object ι F)) :
    (s.setObject n o).setObject n o' = s.setObject n o' := by
  rw [State.setObject, State.setObject, State.setObject, Function.update_idem]

theorem Table.set_eq_self (t : Table ι V F) {n : ι} {e : Option (Option (Callable V F))}
    (h : t.entries n = e) : t.set n e = t := by
  rw [Table.set, ← h, Function.update_eq_self]

variable [DecidableEq F] {address : F → ℕ} {t t' : Table ι V F} {s : State ι V F}

theorem State.put_setObject_self (s : State ι V F) {n : ι} {o : Option (Object ι F)}
    (ho : s.objects n = o) (b : Block ι F) (x : Option (Slot V)) :
    (s.put b x).setObject n o = s.put b x := by
  rw [State.setObject, State.put_objects, ← ho, Function.update_eq_self]
  rfl

theorem fromPointer_refines (h : Refines address t s) {n : ι} (hn : t.entries n = none)
    {base : ℕ} (hp : ObjectPlaced address s base) (f : F) :
    Refines address (t.set n (some (some (.function f))))
      (s.setObject n (some ⟨base, ⟨none, some .function, some ⟨.code f, address f⟩⟩⟩)) := by
  have hfree : (s.setObject n (some ⟨base, {}⟩)).memory (.object n) = none := (h.absent n hn).2
  have hput := (h.add hn hp).put
    ⟨base, ⟨none, some .function, some ⟨.code f, address f⟩⟩⟩ (State.setObject_self _ _ _)
    (.storage none ?_) rfl
    (.remote base _ _ (.function f) (State.put_self _ _ _))
  · rwa [State.put_eq_self _ hfree, State.setObject_setObject, Table.set_set] at hput
  · intro k
    constructor
    · rintro ⟨a, ha⟩
      cases ha
    · exact fun hk => (not_ownsHeap_empty _ _ hk).elim

section Emplace

variable {n : ι} {w : Placement} {ty : CallableType}

omit [DecidableEq F] in
theorem Refines.exists_new (h : Refines address t s) (hn : t.entries n = none) {base : ℕ}
    (hp : ObjectPlaced address s base) :
    ∃ s₁, s.setObject n (some ⟨base, {}⟩) = s₁ ∧ s₁.objects n = some ⟨base, {}⟩ ∧
      s₁.memory (.object n) = none ∧ Refines address (t.set n (some none)) s₁ :=
  ⟨_, rfl, State.setObject_self _ _ _, (h.absent n hn).2, h.add hn hp⟩

theorem emplace_inline (h : Refines address t s) (hn : t.entries n = none)
    (hp : ObjectPlaced address s w.base) {off : ℕ} (hoff : ty.inlineOffset = some off) (value : V) :
    ∃ s', emplace w s n ty value = some s' ∧
      Refines address ((t.set n (some none)).set n (some (some (.object ty value)))) s' := by
  have hin := inlineOffset_spec hoff
  obtain ⟨s₁, hs₁, hself, hfree, hadd⟩ := h.exists_new hn hp
  have hconstruct : s₁.constructAt w.tmpBuf ⟨.object n, w.base + off⟩ ty (some value) =
      some (s₁.put (.object n) (some ⟨w.base + off, ty, some value⟩)) := by
    rw [State.constructAt, if_pos ⟨by simp [hfree], fits_object hself _ hin,
      hin.aligned _ hp.aligned⟩]
  refine ⟨_, ?_, hadd.put (inlineObject n w.base ty off) hself
    (.storage (some ⟨w.base + off, ty, some value⟩) fun k => ?_) rfl
    (.inline w.base ty value off hoff (s₁.put_self _ _))⟩
  · unfold emplace
    simp only [Object.storage, stdAlign_storage ty hp.aligned, hoff, Option.map_some, hs₁,
      hconstruct]
    rfl
  · simp [not_ownsHeap_inlineObject, not_ownsHeap_empty]

theorem emplace_heap (h : Refines address t s) (hn : t.entries n = none)
    (hp : ObjectPlaced address s w.base) (hw : HeapPlaced s ty w)
    (hoff : ty.inlineOffset = none) (value : V) :
    ∃ s', emplace w s n ty value = some s' ∧
      Refines address ((t.set n (some none)).set n (some (some (.object ty value)))) s' := by
  obtain ⟨s₁, hs₁, hself, hfree, hadd⟩ := h.exists_new hn hp
  -- no object begins around the new block, the new one included
  have hclear : ∀ m p, s₁.objects m = some p → ¬ InStorage p.base w.heapAddress := by
    intro m p hm
    rw [← hs₁] at hm
    rcases s.setObject_eq_iff.mp hm with ⟨-, hm⟩ | ⟨-, hm⟩
    · cases hm
      exact hw.offNew
    · exact hw.apart m p hm
  have hnew : s₁.memory (.heap w.heapBlock) = none := by
    rw [← hs₁]
    exact hw.new
  have hconstruct : s₁.constructAt w.tmpBuf ⟨.heap w.heapBlock, w.heapAddress⟩ ty (some value) =
      some (s₁.put (.heap w.heapBlock) (some ⟨w.heapAddress, ty, some value⟩)) := by
    rw [State.constructAt, if_pos ⟨by simp [hnew], rfl, hw.aligned⟩]
  refine ⟨_, ?_, hadd.put ⟨w.base, ⟨some ⟨ty, true⟩, some (.object ty),
    some ⟨.heap w.heapBlock, w.heapAddress⟩⟩⟩ hself (.take w.heapBlock
      ⟨w.heapAddress, ty, some value⟩ ⟨w.heapAddress, rfl⟩ (.inr hnew) ?_ hclear) rfl
    (.remote w.base _ _ (.heap ty value w.heapBlock w.heapAddress hoff (s₁.put_self _ _))
      ((s₁.put_heap_object _ _ _).trans hfree))⟩
  · unfold emplace
    simp only [Object.storage, stdAlign_storage ty hp.aligned, hoff, Option.map_none, hs₁,
      hconstruct]
    rfl
  · intro k hk
    constructor
    · rintro ⟨a, ha⟩
      cases ha
      exact (hk rfl).elim
    · exact fun hk => (not_ownsHeap_empty _ _ hk).elim

theorem emplace_refines (h : Refines address t s) (hn : t.entries n = none)
    (hp : ObjectPlaced address s w.base) (hw : HeapPlaced s ty w) (value : V) :
    ∃ s', emplace w s n ty value = some s' ∧
      Refines address (t.set n (some (some (.object ty value)))) s' := by
  rw [← Table.set_set t n (some none)]
  cases hoff : ty.inlineOffset with
  | some off => exact emplace_inline h hn hp hoff value
  | none => exact emplace_heap h hn hp hw hoff value

end Emplace

theorem swap_refines (h : Refines address t s) {n m : ι} {c d : Option (Callable V F)}
    (hne : n ≠ m) (hc : t.entries n = some c) (hd : t.entries m = some d) {tmpBuf : ℕ}
    (hat : sizeofObject ∣ tmpBuf) : ∃ s', swap tmpBuf s n m = some s' ∧
      Refines address ((t.set n (some d)).set m (some c)) s' := by
  obtain ⟨f, hf, hhf⟩ := h.present n c hc
  obtain ⟨g, hg, hhg⟩ := h.present m d hd
  obtain ⟨s', f', g', hs, hx, hhf', hhg'⟩ := swap_spec hne hf hg hhf hhg (h.aligned n f hf)
    (h.aligned m g hg) hat (h.clear n f hf) (h.clear m g hg) h.tmpBuf
  exact ⟨s', hs, h.exchange hf hg hx hhf' hhg'⟩

theorem call_refines (h : Refines address t s) {n : ι} {c : Callable V F}
    (hc : t.entries n = some (some c)) (after : V) : ∃ s', call s n after = some s' ∧
      Refines address ((t.set n (some (some (c.after after)))).record (.ran c)) s' := by
  obtain ⟨o, ho, hh⟩ := h.present n _ hc
  generalize hd : some c = d at hh
  cases hh with
  | inline base ty value off hoff hmem =>
    cases hd
    have hderef : s.deref ⟨.object n, base + off⟩ ty = some ⟨base + off, ty, some value⟩ :=
      deref_eq hmem
    have hput := h.put _ ho (.storage (some ⟨base + off, ty, some after⟩) fun k => Iff.rfl) rfl
      (.inline base ty after off hoff (s.put_self _ _))
    rw [State.put_setObject_self s ho] at hput
    exact ⟨_, by simp [call, ho, inlineObject, hderef], hput.record _⟩
  | remote base st d hr hobj =>
    cases hr with
    | empty => cases hd
    | function f =>
      cases hd
      refine ⟨s.record (.ran (.function f)), by simp [call, ho], ?_⟩
      rw [Callable.after, Table.set_eq_self t hc]
      exact h.record _
    | heap ty value k a hty hmem =>
      cases hd
      have hderef : s.deref ⟨.heap k, a⟩ ty = some ⟨a, ty, some value⟩ := deref_eq hmem
      -- the callable stays at its address, which is clear of all storages
      have hoff : ∀ m p, s.objects m = some p → ¬ InStorage p.base a :=
        fun m p hp => (h.clear m p hp).heap k _ hmem
      have hput := h.put _ ho (.take k ⟨a, ty, some after⟩ ⟨a, rfl⟩ (.inl ⟨a, rfl⟩)
        (fun k' _ => Iff.rfl) hoff) rfl
        (.remote base _ _ (.heap ty after k a hty (s.put_self _ _))
          ((s.put_heap_object _ _ _).trans hobj))
      rw [State.put_setObject_self s ho] at hput
      exact ⟨_, by simp [call, ho, hderef], hput.record _⟩

theorem cleared_refines (h : Refines address t s) {n : ι} {o : Object ι F}
    (ho : s.objects n = some o) {b : Block ι F}
    (hb : Footprint s n o ⟨o.base, {}⟩ b none)
    (hfree : (s.put b none).memory (.object n) = none) :
    Refines address (t.set n none) ((s.put b none).setObject n none) := by
  have hput := h.put ⟨o.base, {}⟩ ho hb rfl (.remote o.base {} none .empty hfree)
  have hrem := hput.remove (State.setObject_self _ _ _)
  rwa [Table.set_set, State.setObject_setObject] at hrem

theorem destroy_refines (h : Refines address t s) {n : ι} {c : Option (Callable V F)}
    (hc : t.entries n = some c) : ∃ s', destroy s n = some s' ∧
      Refines address (t.set n none) s' := by
  obtain ⟨o, ho, hh⟩ := h.present n c hc
  cases hh with
  | inline base ty value off hoff hmem =>
    have hderef : s.deref ⟨.object n, base + off⟩ ty = some ⟨base + off, ty, some value⟩ :=
      deref_eq hmem
    refine ⟨(s.put (.object n) none).setObject n none, ?_, cleared_refines h ho
      (.storage none fun k => ?_) (s.put_self _ _)⟩
    · simp [destroy, ho, inlineObject, VTable.destroy, hderef, Block.isHeap]
    · simp [not_ownsHeap_inlineObject, not_ownsHeap_empty]
  | remote base st c hr hobj =>
    -- without a callable of its own the object just goes
    have hnone : (∀ k, ¬ (⟨base, st⟩ : Object ι F).OwnsHeap k) →
        Refines address (t.set n none) (s.setObject n none) := by
      intro hno
      have hclear := cleared_refines h ho
        (.storage none fun k => by simp [hno, not_ownsHeap_empty]) (s.put_self _ _)
      rwa [s.put_eq_self hobj] at hclear
    cases hr with
    | empty => exact ⟨_, by simp [destroy, ho], hnone (not_ownsHeap_empty base)⟩
    | function f =>
      refine ⟨_, by simp [destroy, ho], hnone ?_⟩
      rintro k ⟨a, ha⟩
      cases ha
    | heap ty value k a hty hmem =>
      have hderef : s.deref ⟨.heap k, a⟩ ty = some ⟨a, ty, some value⟩ := deref_eq hmem
      refine ⟨(s.put (.heap k) none).setObject n none, ?_, cleared_refines h ho
        (.free k ⟨a, rfl⟩ (not_ownsHeap_empty _ _) fun k' hk' => ?_)
        ((s.put_heap_object _ _ _).trans hobj)⟩
      · simp [destroy, ho, VTable.destroy, hderef, Block.isHeap]
      · constructor
        · exact fun hk => (not_ownsHeap_empty _ _ hk).elim
        · rintro ⟨a', ha'⟩
          cases ha'
          exact (hk' rfl).elim

theorem step_refines {op : Op ι V F} {w : Placement} (h : Refines address t s)
    (hw : Placed address s (op, w)) (ht : t.step op = some t') :
    ∃ s', step address s (op, w) = some s' ∧ Refines address t' s' := by
  cases op with
  | construct n =>
    obtain ⟨hn, rfl⟩ := Table.add_eq_some.mp ht
    exact ⟨_, rfl, h.add hn hw⟩
  | emplace n ty value =>
    obtain ⟨hn, rfl⟩ := Table.add_eq_some.mp ht
    exact emplace_refines h hn hw.1 hw.2 value
  | fromPointer n f =>
    obtain ⟨hn, rfl⟩ := Table.add_eq_some.mp ht
    exact ⟨_, rfl, fromPointer_refines h hn hw f⟩
  | moveConstruct n m =>
    simp only [Table.step] at ht
    split at ht
    · rename_i c hn hm
      cases ht
      have hne : n ≠ m := by
        rintro rfl
        rw [hn] at hm
        cases hm
      have hadd := h.add hn hw.1
      have hswap := swap_refines hadd hne (Table.set_self _ _ _)
        ((Table.set_ne _ hne.symm _).trans hm) hw.2
      rwa [Table.set_set] at hswap
    · cases ht
  | moveAssign n m =>
    obtain ⟨hne, c, d, hc, hd, rfl⟩ := Table.exchange_eq_some.mp ht
    exact swap_refines h hne hc hd hw
  | swap n m =>
    obtain ⟨hne, c, d, hc, hd, rfl⟩ := Table.exchange_eq_some.mp ht
    exact swap_refines h hne hc hd hw
  | call n after =>
    simp only [Table.step] at ht
    split at ht
    · rename_i c hc
      cases ht
      exact call_refines h hc after
    · cases ht
  | toBool n =>
    simp only [Table.step] at ht
    split at ht
    · rename_i c hc
      cases ht
      obtain ⟨o, ho, hh⟩ := h.present n c hc
      refine ⟨s.record (.isSet o.state.call.isSome), by simp [step, ho], ?_⟩
      rw [hh.isSet]
      exact h.record _
    · cases ht
  | destroy n =>
    simp only [Table.step] at ht
    split at ht
    · rename_i c hc
      cases ht
      exact destroy_refines h hc
    · cases ht

end BadIo.UniqueFunction
