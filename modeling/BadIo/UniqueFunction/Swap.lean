import BadIo.UniqueFunction.Basic

namespace BadIo.UniqueFunction

variable {ι V F : Type}

/-- Where in an object a callable of this type goes, if it is stored inline. -/
def CallableType.inlineOffset (ty : CallableType) : Option ℕ :=
  if ty.nothrowMove then
    stdAlign ty.align ty.size sizeofVirtualState (sizeofObject - sizeofVirtualState)
  else none

structure CallableType.InlineAt (ty : CallableType) (off : ℕ) : Prop where
  lower : sizeofVirtualState ≤ off
  upper : off + ty.size ≤ sizeofObject
  aligned : ∀ base, sizeofObject ∣ base → ty.align ∣ base + off

theorem inlineOffset_spec {ty : CallableType} {off : ℕ} (h : ty.inlineOffset = some off) :
    ty.InlineAt off := by
  unfold CallableType.inlineOffset at h
  split at h
  · obtain ⟨hlo, hhi, hdvd⟩ := stdAlign_spec (Nat.two_pow_pos _) h
    have hobj : ty.align ∣ sizeofObject :=
      dvd_of_stdAlign (j := 6) ty.size_pos (by decide) (by decide) h
    exact ⟨hlo, hhi, fun base hbase => (Nat.dvd_add_right (hobj.trans hbase)).mpr hdvd⟩
  · cases h

theorem stdAlign_storage (ty : CallableType) {base : ℕ} (hbase : sizeofObject ∣ base) :
    (if ty.nothrowMove then
        stdAlign ty.align ty.size (base + sizeofVirtualState) (sizeofObject - sizeofVirtualState)
      else none) = ty.inlineOffset.map (base + ·) := by
  unfold CallableType.inlineOffset
  split
  · exact stdAlign_add (j := 6) ty.size_pos (by decide) (by decide) hbase
  · rfl

/-- The callable is not in the storage of the object: there is none, or it is a function,
or on the heap. -/
inductive Remote (address : F → ℕ) (s : State ι V F) :
    VirtualState ι F → Option (Callable V F) → Prop where
  | empty : Remote address s ⟨none, none, none⟩ none
  | function (f : F) :
      Remote address s ⟨none, some .function, some ⟨.code f, address f⟩⟩ (some (.function f))
  | heap (ty : CallableType) (value : V) (k a : ℕ) (hty : ty.inlineOffset = none)
      (hmem : s.memory (.heap k) = some ⟨a, ty, some value⟩) :
      Remote address s ⟨some ⟨ty, true⟩, some (.object ty), some ⟨.heap k, a⟩⟩
        (some (.object ty value))

def inlineObject (n : ι) (base : ℕ) (ty : CallableType) (off : ℕ) : Object ι F :=
  ⟨base, ⟨some ⟨ty, false⟩, some (.object ty), some ⟨.object n, base + off⟩⟩⟩

inductive Holds (address : F → ℕ) (s : State ι V F) (n : ι) :
    Object ι F → Option (Callable V F) → Prop where
  | inline (base : ℕ) (ty : CallableType) (value : V) (off : ℕ) (hoff : ty.inlineOffset = some off)
      (hmem : s.memory (.object n) = some ⟨base + off, ty, some value⟩) :
      Holds address s n (inlineObject n base ty off) (some (.object ty value))
  | remote (base : ℕ) (st : VirtualState ι F) (c : Option (Callable V F))
      (h : Remote address s st c) (hmem : s.memory (.object n) = none) :
      Holds address s n ⟨base, st⟩ c

structure Clear (address : F → ℕ) (s : State ι V F) (base : ℕ) : Prop where
  heap : ∀ k slot, s.memory (.heap k) = some slot → ¬ InStorage base slot.address
  code : ∀ f, ¬ InStorage base (address f)

theorem isInline_iff (base : ℕ) (vt : Option VTable) (call : Option CallFn) (p : Pointer ι F) :
    (⟨base, ⟨vt, call, some p⟩⟩ : Object ι F).isInline = true ↔ InStorage base p.address := by
  simp only [Object.isInline, Bool.and_eq_true, decide_eq_true_eq]
  exact Iff.rfl

theorem isInline_inline {ty : CallableType} {off : ℕ} (h : ty.InlineAt off) (n : ι) (base : ℕ) :
    (inlineObject n base ty off : Object ι F).isInline = true := by
  have hlo := h.lower
  have hhi := h.upper
  have hpos := ty.size_pos
  rw [inlineObject, isInline_iff]
  show base + sizeofVirtualState ≤ base + off ∧ base + off < base + sizeofObject
  omega

theorem isInline_remote {address : F → ℕ} {s : State ι V F} {st : VirtualState ι F}
    {c : Option (Callable V F)} (h : Remote address s st c) {base : ℕ}
    (hclear : Clear address s base) : (⟨base, st⟩ : Object ι F).isInline = false := by
  rw [Bool.eq_false_iff]
  cases h with
  | empty => exact Bool.false_ne_true
  | function f =>
    rw [Ne, isInline_iff]
    exact hclear.code f
  | heap ty value k a hty hmem =>
    rw [Ne, isInline_iff]
    exact hclear.heap k _ hmem

theorem Remote.frame {address : F → ℕ} {s s' : State ι V F} {st : VirtualState ι F}
    {c : Option (Callable V F)} (h : Remote address s st c)
    (hmem : ∀ k a, st.data = some ⟨.heap k, a⟩ → s'.memory (.heap k) = s.memory (.heap k)) :
    Remote address s' st c := by
  cases h with
  | empty => exact .empty
  | function f => exact .function f
  | heap ty value k a hty h => exact .heap ty value k a hty ((hmem k a rfl).trans h)

def Object.OwnsHeap (o : Object ι F) (k : ℕ) : Prop := ∃ a, o.state.data = some ⟨.heap k, a⟩

theorem not_ownsHeap_inlineObject (n : ι) (base : ℕ) (ty : CallableType) (off k : ℕ) :
    ¬ (inlineObject n base ty off : Object ι F).OwnsHeap k := by
  rintro ⟨a, ha⟩
  cases ha

structure Exchanged (s s' : State ι V F) (first second : ι) (f g f' g' : Object ι F) : Prop where
  atFirst : s'.objects first = some f'
  atSecond : s'.objects second = some g'
  others : ∀ n, n ≠ first → n ≠ second → s'.objects n = s.objects n
  memory : ∀ b, b ≠ .object first → b ≠ .object second → s'.memory b = s.memory b
  history : s'.history = s.history
  baseFirst : f'.base = f.base
  baseSecond : g'.base = g.base
  heapFirst : ∀ k, f'.OwnsHeap k ↔ g.OwnsHeap k
  heapSecond : ∀ k, g'.OwnsHeap k ↔ f.OwnsHeap k

theorem Exchanged.symm {s s' : State ι V F} {first second : ι} {f g f' g' : Object ι F}
    (h : Exchanged s s' first second f g f' g') : Exchanged s s' second first g f g' f' where
  atFirst := h.atSecond
  atSecond := h.atFirst
  others n hn hm := h.others n hm hn
  memory b hn hm := h.memory b hm hn
  history := h.history
  baseFirst := h.baseSecond
  baseSecond := h.baseFirst
  heapFirst := h.heapSecond
  heapSecond := h.heapFirst

theorem deref_eq {s : State ι V F} {p : Pointer ι F} {ty : CallableType} {value : Option V}
    (h : s.memory p.block = some ⟨p.address, ty, value⟩) :
    s.deref p ty = some ⟨p.address, ty, value⟩ := by
  rw [State.deref, h, Option.filter_some, if_pos (by simp)]

theorem fits_object {s : State ι V F} {n : ι} {o : Object ι F} (ho : s.objects n = some o)
    (tmpBuf : ℕ) {ty : CallableType} {off : ℕ} (h : ty.InlineAt off) :
    s.fits tmpBuf ⟨.object n, o.base + off⟩ ty.size = true := by
  -- any place of an object that suits a type holds it at that offset
  have hlo := h.lower
  have hhi := h.upper
  simp only [State.fits, ho, Bool.and_eq_true, decide_eq_true_eq]
  show o.base + sizeofVirtualState ≤ o.base + off ∧
    o.base + off + ty.size ≤ o.base + sizeofObject
  omega

theorem fits_tmpBuf (s : State ι V F) (tmpBuf : ℕ) {ty : CallableType} {off : ℕ}
    (h : ty.InlineAt off) : s.fits tmpBuf ⟨.tmpBuf, tmpBuf + off⟩ ty.size = true := by
  have hhi := h.upper
  simp only [State.fits, Bool.and_eq_true, decide_eq_true_eq]
  omega

variable [DecidableEq ι]

namespace State

variable (s : State ι V F)

@[simp] theorem setObject_memory (n : ι) (o : Option (Object ι F)) :
    (s.setObject n o).memory = s.memory := rfl

@[simp] theorem setObject_self (n : ι) (o : Option (Object ι F)) :
    (s.setObject n o).objects n = o :=
  Function.update_self ..

theorem setObject_ne {n m : ι} (h : m ≠ n) (o : Option (Object ι F)) :
    (s.setObject n o).objects m = s.objects m :=
  Function.update_of_ne h ..

theorem setObject_eq_iff {n m : ι} {o x : Option (Object ι F)} :
    (s.setObject n o).objects m = x ↔ m = n ∧ o = x ∨ m ≠ n ∧ s.objects m = x := by
  by_cases h : m = n
  · subst h
    simp
  · simp [h, s.setObject_ne h]

theorem setObject_pair {n m : ι} (h : n ≠ m) (a b c d : Option (Object ι F)) :
    (((s.setObject n a).setObject m b).setObject n c).setObject m d =
      (s.setObject n c).setObject m d := by
  simp only [setObject, Function.update_comm h.symm, Function.update_idem]

end State

theorem setData_eq {s : State ι V F} {n : ι} {o : Object ι F} (ho : s.objects n = some o)
    (p : Option (Pointer ι F)) : s.setData n p =
      some (s.setObject n (some ⟨o.base, ⟨o.state.vtable, o.state.call, p⟩⟩)) := by
  simp [State.setData, ho]

theorem exchanged_setObject {s t : State ι V F} {first second : ι} {f g f' g' : Object ι F}
    (hne : first ≠ second) (hobj : t.objects = s.objects) (hhist : t.history = s.history)
    (hmem : ∀ b, b ≠ .object first → b ≠ .object second → t.memory b = s.memory b)
    (hbf : f'.base = f.base) (hbg : g'.base = g.base)
    (hhf : ∀ k, f'.OwnsHeap k ↔ g.OwnsHeap k) (hhg : ∀ k, g'.OwnsHeap k ↔ f.OwnsHeap k) :
    Exchanged s ((t.setObject first (some f')).setObject second (some g')) first second f g f' g' where
  atFirst := (State.setObject_ne _ hne _).trans (State.setObject_self _ _ _)
  atSecond := State.setObject_self _ _ _
  others n hn hm := by rw [State.setObject_ne _ hm, State.setObject_ne _ hn, hobj]
  memory := hmem
  history := hhist
  baseFirst := hbf
  baseSecond := hbg
  heapFirst := hhf
  heapSecond := hhg

section Members

variable {s : State ι V F} {first second : ι} {f g : Object ι F} (hne : first ≠ second)
  (hf : s.objects first = some f) (hg : s.objects second = some g)

include hne hf hg

theorem swapVtable_eq : s.swapVtable first second =
    some ((s.setObject first (some ⟨f.base, ⟨g.state.vtable, f.state.call, f.state.data⟩⟩)).setObject
      second (some ⟨g.base, ⟨f.state.vtable, g.state.call, g.state.data⟩⟩)) := by
  simp [State.swapVtable, hf, hg, State.setObject_ne _ hne.symm]

theorem swapCall_eq : s.swapCall first second =
    some ((s.setObject first (some ⟨f.base, ⟨f.state.vtable, g.state.call, f.state.data⟩⟩)).setObject
      second (some ⟨g.base, ⟨g.state.vtable, f.state.call, g.state.data⟩⟩)) := by
  simp [State.swapCall, hf, hg, State.setObject_ne _ hne.symm]

theorem swapData_eq : s.swapData first second =
    some ((s.setObject first (some ⟨f.base, ⟨f.state.vtable, f.state.call, g.state.data⟩⟩)).setObject
      second (some ⟨g.base, ⟨g.state.vtable, g.state.call, f.state.data⟩⟩)) := by
  simp [State.swapData, hf, hg, State.setObject_ne _ hne.symm]

theorem assign_members (p q : Option (Pointer ι F)) :
    ((s.setData first p).bind fun s => (s.setData second q).bind fun s =>
        (s.swapVtable first second).bind fun s => s.swapCall first second) =
      some ((s.setObject first (some ⟨f.base, ⟨g.state.vtable, g.state.call, p⟩⟩)).setObject second
        (some ⟨g.base, ⟨f.state.vtable, f.state.call, q⟩⟩)) := by
  rw [setData_eq hf, Option.bind_some, setData_eq ((State.setObject_ne _ hne.symm _).trans hg),
    Option.bind_some, swapVtable_eq hne ((State.setObject_ne _ hne _).trans
      (State.setObject_self _ _ _)) (State.setObject_self _ _ _), Option.bind_some,
    State.setObject_pair _ hne, swapCall_eq hne ((State.setObject_ne _ hne _).trans
      (State.setObject_self _ _ _)) (State.setObject_self _ _ _), State.setObject_pair _ hne]

theorem swapOther_eq : swapOther s first second =
    some ((s.setObject first (some ⟨f.base, g.state⟩)).setObject second
      (some ⟨g.base, f.state⟩)) := by
  simp only [swapOther, Option.bind_eq_bind]
  rw [swapVtable_eq hne hf hg, Option.bind_some, swapCall_eq hne ((State.setObject_ne _ hne _).trans
      (State.setObject_self _ _ _)) (State.setObject_self _ _ _), Option.bind_some,
    State.setObject_pair _ hne, swapData_eq hne ((State.setObject_ne _ hne _).trans
      (State.setObject_self _ _ _)) (State.setObject_self _ _ _), State.setObject_pair _ hne]

end Members

theorem swapOther_spec {address : F → ℕ} {s : State ι V F} {first second : ι} {bf bg : ℕ}
    {st st' : VirtualState ι F} {c d : Option (Callable V F)}
    (hne : first ≠ second) (hf : s.objects first = some ⟨bf, st⟩)
    (hg : s.objects second = some ⟨bg, st'⟩) (hmf : s.memory (.object first) = none)
    (hmg : s.memory (.object second) = none) (hr : Remote address s st c)
    (hr' : Remote address s st' d) :
    ∃ s' f' g', swapOther s first second = some s' ∧
      Exchanged s s' first second ⟨bf, st⟩ ⟨bg, st'⟩ f' g' ∧
      Holds address s' first f' d ∧ Holds address s' second g' c := by
  refine ⟨_, ⟨bf, st'⟩, ⟨bg, st⟩, swapOther_eq hne hf hg, ?_, ?_, ?_⟩
  · exact exchanged_setObject hne rfl rfl (fun b _ _ => rfl) rfl rfl (fun k => Iff.rfl)
      fun k => Iff.rfl
  · exact .remote bf st' d (hr'.frame fun k a _ => rfl) hmf
  · exact .remote bg st c (hr.frame fun k a _ => rfl) hmg

variable [DecidableEq F]

namespace State

variable (s : State ι V F)

@[simp] theorem put_objects (b : Block ι F) (x : Option (Slot V)) :
    (s.put b x).objects = s.objects := rfl

@[simp] theorem put_self (b : Block ι F) (x : Option (Slot V)) : (s.put b x).memory b = x :=
  Function.update_self ..

theorem put_ne {b b' : Block ι F} (h : b' ≠ b) (x : Option (Slot V)) :
    (s.put b x).memory b' = s.memory b' :=
  Function.update_of_ne h ..

@[simp] theorem put_object_heap (n : ι) (x : Option (Slot V)) (k : ℕ) :
    (s.put (.object n) x).memory (.heap k) = s.memory (.heap k) :=
  s.put_ne (by simp) x

@[simp] theorem put_object_tmpBuf (n : ι) (x : Option (Slot V)) :
    (s.put (.object n) x).memory .tmpBuf = s.memory .tmpBuf :=
  s.put_ne (by simp) x

@[simp] theorem put_heap_object (k : ℕ) (x : Option (Slot V)) (n : ι) :
    (s.put (.heap k) x).memory (.object n) = s.memory (.object n) :=
  s.put_ne (by simp) x

@[simp] theorem put_heap_tmpBuf (k : ℕ) (x : Option (Slot V)) :
    (s.put (.heap k) x).memory .tmpBuf = s.memory .tmpBuf :=
  s.put_ne (by simp) x

@[simp] theorem put_put (b : Block ι F) (x y : Option (Slot V)) :
    (s.put b x).put b y = s.put b y := by
  simp [put]

theorem put_comm {b b' : Block ι F} (h : b ≠ b') (x y : Option (Slot V)) :
    (s.put b x).put b' y = (s.put b' y).put b x := by
  rw [put, put, put, put, Function.update_comm h]

theorem put_eq_self {b : Block ι F} {x : Option (Slot V)} (h : s.memory b = x) : s.put b x = s := by
  rw [put, ← h, Function.update_eq_self]

end State

theorem relocate (s : State ι V F) (tmpBuf : ℕ) (vt : VTable) (src dst : Pointer ι F) {v : V}
    (hsrc : s.memory src.block = some ⟨src.address, vt.ty, some v⟩)
    (hdst : s.memory dst.block = none) (hfits : s.fits tmpBuf dst vt.ty.size = true)
    (halign : vt.ty.align ∣ dst.address) (hheap : vt.heap = src.block.isHeap) :
    ∃ s₁, vt.moveConstruct tmpBuf s dst src = some s₁ ∧ vt.destroy s₁ src =
      some ((s.put dst.block (some ⟨dst.address, vt.ty, some v⟩)).put src.block none) := by
  have hderef := deref_eq hsrc
  have hconstruct : s.constructAt tmpBuf dst vt.ty (some v) =
      some (s.put dst.block (some ⟨dst.address, vt.ty, some v⟩)) := by
    rw [State.constructAt, if_pos ⟨by simp [hdst], hfits, halign⟩]
  refine ⟨(s.put dst.block (some ⟨dst.address, vt.ty, some v⟩)).put src.block
    (some ⟨src.address, vt.ty, none⟩), ?_, ?_⟩
  · simp [VTable.moveConstruct, hderef, hconstruct]
  · -- the source is moved from and still there to be destroyed
    have hmoved : ((s.put dst.block (some ⟨dst.address, vt.ty, some v⟩)).put src.block
        (some ⟨src.address, vt.ty, none⟩)).deref src vt.ty = some ⟨src.address, vt.ty, none⟩ :=
      deref_eq (State.put_self _ _ _)
    simp [VTable.destroy, hmoved, hheap]

theorem swapInline_eq {s : State ι V F} {tmpBuf : ℕ} {first second : ι} {bf bg of og : ℕ}
    {tf tg : CallableType} {vf vg : V} (hne : first ≠ second)
    (hf : s.objects first = some (inlineObject first bf tf of))
    (hg : s.objects second = some (inlineObject second bg tg og))
    (hmf : s.memory (.object first) = some ⟨bf + of, tf, some vf⟩)
    (hmg : s.memory (.object second) = some ⟨bg + og, tg, some vg⟩)
    (htmp : s.memory .tmpBuf = none) (hif : tf.InlineAt of) (hig : tg.InlineAt og)
    (haf : sizeofObject ∣ bf) (hag : sizeofObject ∣ bg) (hat : sizeofObject ∣ tmpBuf) :
    swapInline tmpBuf s first second = some
      ((((s.put (.object first) (some ⟨bf + og, tg, some vg⟩)).put (.object second)
          (some ⟨bg + of, tf, some vf⟩)).setObject first
            (some (inlineObject first bf tg og))).setObject second
              (some (inlineObject second bg tf of))) := by
  have hlof := hif.lower
  have hlog := hig.lower
  have hbf : Block.object first ≠ (Block.object second : Block ι F) := by simp [hne]
  -- the offsets that the code computes are those in the objects
  have htmpAddr : tmpBuf + (sizeofVirtualState + (bf + of - (bf + sizeofVirtualState))) =
      tmpBuf + of := by omega
  have hinFirst : bf + sizeofVirtualState + (sizeofVirtualState +
      (bg + og - (bg + sizeofVirtualState))) - sizeofVirtualState = bf + og := by omega
  have hinSecond : bg + sizeofVirtualState + (sizeofVirtualState +
      (bf + of - (bf + sizeofVirtualState))) - sizeofVirtualState = bg + of := by omega
  -- first to the temporary buffer, second to first, the temporary buffer to second
  obtain ⟨s₁, hmove₁, hdestroy₁⟩ := relocate s tmpBuf ⟨tf, false⟩ ⟨.object first, bf + of⟩
    ⟨.tmpBuf, tmpBuf + of⟩ hmf htmp (fits_tmpBuf s tmpBuf hif) (hif.aligned _ hat) rfl
  generalize ht₁ : (s.put .tmpBuf (some ⟨tmpBuf + of, tf, some vf⟩)).put (.object first) none = t₁
    at hdestroy₁
  have hobj₁ : t₁.objects = s.objects := by rw [← ht₁]; rfl
  obtain ⟨s₂, hmove₂, hdestroy₂⟩ := relocate t₁ tmpBuf ⟨tg, false⟩ ⟨.object second, bg + og⟩
    ⟨.object first, bf + og⟩ (by simpa [← ht₁, State.put_ne, hbf.symm] using hmg)
    (by simp [← ht₁]) (fits_object (hobj₁ ▸ hf) tmpBuf hig) (hig.aligned _ haf) rfl
  generalize ht₂ : (t₁.put (.object first) (some ⟨bf + og, tg, some vg⟩)).put (.object second) none =
    t₂ at hdestroy₂
  have hobj₂ : t₂.objects = s.objects := by rw [← ht₂]; exact hobj₁
  obtain ⟨s₃, hmove₃, hdestroy₃⟩ := relocate t₂ tmpBuf ⟨tf, false⟩ ⟨.tmpBuf, tmpBuf + of⟩
    ⟨.object second, bg + of⟩ (v := vf) (by simp [← ht₂, ← ht₁, State.put_ne])
    (by simp [← ht₂]) (fits_object (hobj₂ ▸ hg) tmpBuf hif) (hif.aligned _ hag) rfl
  rw [swapInline, hf, hg]
  dsimp only [inlineObject, Object.storage, Option.bind_eq_bind, Option.bind_some]
  rw [htmpAddr, hinFirst, hinSecond, hmove₁, Option.bind_some, hdestroy₁, Option.bind_some, hmove₂,
    Option.bind_some, hdestroy₂, Option.bind_some, hmove₃, Option.bind_some, hdestroy₃,
    Option.bind_some]
  have hend : (t₂.put (.object second) (some ⟨bg + of, tf, some vf⟩)).put .tmpBuf none =
      (s.put (.object first) (some ⟨bf + og, tg, some vg⟩)).put (.object second)
        (some ⟨bg + of, tf, some vf⟩) := by
    rw [← ht₂, ← ht₁, State.put_put, State.put_put,
      State.put_comm _ (show Block.object second ≠ .tmpBuf by simp),
      State.put_comm _ (show Block.object first ≠ .tmpBuf by simp), State.put_put,
      State.put_eq_self s htmp]
  rw [hend]
  generalize ht : (s.put (.object first) (some ⟨bf + og, tg, some vg⟩)).put (.object second)
    (some ⟨bg + of, tf, some vf⟩) = t
  have hobj : t.objects = s.objects := by rw [← ht]; rfl
  exact assign_members hne (hobj ▸ hf) (hobj ▸ hg) _ _

theorem swapInlineOther_eq {s : State ι V F} {tmpBuf : ℕ} {first second : ι} {bf bg of : ℕ}
    {tf : CallableType} {vf : V} {st : VirtualState ι F} (hne : first ≠ second)
    (hf : s.objects first = some (inlineObject first bf tf of))
    (hg : s.objects second = some ⟨bg, st⟩)
    (hmf : s.memory (.object first) = some ⟨bf + of, tf, some vf⟩)
    (hmg : s.memory (.object second) = none) (hif : tf.InlineAt of) (hag : sizeofObject ∣ bg) :
    swapInlineOther tmpBuf s first second = some
      ((((s.put (.object second) (some ⟨bg + of, tf, some vf⟩)).put (.object first) none).setObject
        first (some ⟨bf, st⟩)).setObject second (some (inlineObject second bg tf of))) := by
  have hlof := hif.lower
  have hinSecond : bg + sizeofVirtualState + (bf + of - (bf + sizeofVirtualState)) = bg + of := by
    omega
  obtain ⟨s₁, hmove, hdestroy⟩ := relocate s tmpBuf ⟨tf, false⟩ ⟨.object first, bf + of⟩
    ⟨.object second, bg + of⟩ hmf hmg (fits_object hg tmpBuf hif) (hif.aligned _ hag) rfl
  simp only [swapInlineOther, hf, hg, inlineObject, Object.storage, Option.bind_eq_bind,
    Option.bind_some, hinSecond, hmove, hdestroy]
  generalize ht : (s.put (.object second) (some ⟨bg + of, tf, some vf⟩)).put (.object first) none = t
  have hobj : t.objects = s.objects := by rw [← ht]; rfl
  exact assign_members hne (hobj ▸ hf) (hobj ▸ hg) _ _

section Exchange

variable {address : F → ℕ} {s : State ι V F} {first second : ι}

theorem swapInline_spec {tmpBuf bf bg of og : ℕ} {tf tg : CallableType} {vf vg : V}
    (hne : first ≠ second) (hf : s.objects first = some (inlineObject first bf tf of))
    (hg : s.objects second = some (inlineObject second bg tg og))
    (hmf : s.memory (.object first) = some ⟨bf + of, tf, some vf⟩)
    (hmg : s.memory (.object second) = some ⟨bg + og, tg, some vg⟩)
    (htmp : s.memory .tmpBuf = none) (hof : tf.inlineOffset = some of)
    (hog : tg.inlineOffset = some og) (haf : sizeofObject ∣ bf) (hag : sizeofObject ∣ bg)
    (hat : sizeofObject ∣ tmpBuf) :
    ∃ s' f' g', swapInline tmpBuf s first second = some s' ∧
      Exchanged s s' first second (inlineObject first bf tf of) (inlineObject second bg tg og) f' g' ∧
      Holds address s' first f' (some (.object tg vg)) ∧
      Holds address s' second g' (some (.object tf vf)) := by
  have hbf : Block.object first ≠ (Block.object second : Block ι F) := by simp [hne]
  refine ⟨_, inlineObject first bf tg og, inlineObject second bg tf of,
    swapInline_eq hne hf hg hmf hmg htmp (inlineOffset_spec hof) (inlineOffset_spec hog) haf hag hat,
    exchanged_setObject hne rfl rfl (fun b hb hb' => ?_) rfl rfl ?_ ?_, ?_, ?_⟩
  · rw [State.put_ne _ hb', State.put_ne _ hb]
  · simp [not_ownsHeap_inlineObject]
  · simp [not_ownsHeap_inlineObject]
  · apply Holds.inline bf tg vg og hog
    exact (State.put_ne _ hbf _).trans (State.put_self _ _ _)
  · exact .inline bg tf vf of hof (State.put_self _ _ _)

theorem swapInlineOther_spec {bf bg of : ℕ} {tf : CallableType} {vf : V} {st : VirtualState ι F}
    {d : Option (Callable V F)} (tmpBuf : ℕ) (hne : first ≠ second)
    (hf : s.objects first = some (inlineObject first bf tf of))
    (hg : s.objects second = some ⟨bg, st⟩)
    (hmf : s.memory (.object first) = some ⟨bf + of, tf, some vf⟩)
    (hmg : s.memory (.object second) = none) (hof : tf.inlineOffset = some of)
    (hr : Remote address s st d) (hag : sizeofObject ∣ bg) :
    ∃ s' f' g', swapInlineOther tmpBuf s first second = some s' ∧
      Exchanged s s' first second (inlineObject first bf tf of) ⟨bg, st⟩ f' g' ∧
      Holds address s' first f' d ∧ Holds address s' second g' (some (.object tf vf)) := by
  have hbf : Block.object second ≠ (Block.object first : Block ι F) := by simp [hne.symm]
  refine ⟨_, ⟨bf, st⟩, inlineObject second bg tf of,
    swapInlineOther_eq hne hf hg hmf hmg (inlineOffset_spec hof) hag,
    exchanged_setObject hne rfl rfl (fun b hb hb' => ?_) rfl rfl (fun k => Iff.rfl) ?_, ?_, ?_⟩
  · rw [State.put_ne _ hb, State.put_ne _ hb']
  · simp [not_ownsHeap_inlineObject]
  · exact .remote bf st d (hr.frame fun k a _ => by simp) (State.put_self _ _ _)
  · apply Holds.inline bg tf vf of hof
    exact (State.put_ne _ hbf _).trans (State.put_self _ _ _)

/-- `swap` of two distinct objects takes no forbidden step and exchanges what they hold. -/
theorem swap_spec {tmpBuf : ℕ} {f g : Object ι F} {c d : Option (Callable V F)}
    (hne : first ≠ second) (hf : s.objects first = some f) (hg : s.objects second = some g)
    (hc : Holds address s first f c) (hd : Holds address s second g d)
    (haf : sizeofObject ∣ f.base) (hag : sizeofObject ∣ g.base) (hat : sizeofObject ∣ tmpBuf)
    (hcf : Clear address s f.base) (hcg : Clear address s g.base) (htmp : s.memory .tmpBuf = none) :
    ∃ s' f' g', swap tmpBuf s first second = some s' ∧ Exchanged s s' first second f g f' g' ∧
      Holds address s' first f' d ∧ Holds address s' second g' c := by
  cases hc with
  | inline bf tf vf of hof hmf =>
    have hif := inlineOffset_spec hof
    cases hd with
    | inline bg tg vg og hog hmg =>
      have hlayout : swap tmpBuf s first second = swapInline tmpBuf s first second := by
        simp [swap, swapBody, hf, hg, isInline_inline hif, isInline_inline (inlineOffset_spec hog)]
      rw [hlayout]
      exact swapInline_spec hne hf hg hmf hmg htmp hof hog haf hag hat
    | remote bg st d hr hmg =>
      have hlayout : swap tmpBuf s first second = swapInlineOther tmpBuf s first second := by
        simp [swap, swapBody, hf, hg, isInline_inline hif, isInline_remote hr hcg]
      rw [hlayout]
      exact swapInlineOther_spec tmpBuf hne hf hg hmf hmg hof hr hag
  | remote bf st c hr hmf =>
    cases hd with
    | inline bg tg vg og hog hmg =>
      -- the inner call has the roles exchanged
      have hlayout : swap tmpBuf s first second = swapInlineOther tmpBuf s second first := by
        simp [swap, swapBody, hf, hg, isInline_inline (inlineOffset_spec hog),
          isInline_remote hr hcf]
      rw [hlayout]
      obtain ⟨s', g', f', hs, hx, hg', hf'⟩ :=
        swapInlineOther_spec tmpBuf hne.symm hg hf hmg hmf hog hr haf
      exact ⟨s', f', g', hs, hx.symm, hf', hg'⟩
    | remote bg st' d hr' hmg =>
      have hlayout : swap tmpBuf s first second = swapOther s first second := by
        simp [swap, swapBody, hf, hg, isInline_remote hr hcf, isInline_remote hr' hcg]
      rw [hlayout]
      exact swapOther_spec hne hf hg hmf hmg hr hr'

end Exchange

end BadIo.UniqueFunction
