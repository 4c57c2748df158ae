import Mathlib.Logic.Equiv.Basic
import BadIo.UniqueFunction.Swap
import BadIo.UniqueFunction.Table

namespace BadIo.UniqueFunction

variable {ι V F : Type}

/-- The objects hold what the table says; every living callable on the heap has exactly
one owner, and nothing is left in the temporary buffer or in storage without an object. -/
structure Refines (address : F → ℕ) (t : Table ι V F) (s : State ι V F) : Prop where
  absent : ∀ n, t.entries n = none → s.objects n = none ∧ s.memory (.object n) = none
  present : ∀ n c, t.entries n = some c → ∃ o, s.objects n = some o ∧ Holds address s n o c
  aligned : ∀ n o, s.objects n = some o → sizeofObject ∣ o.base
  clear : ∀ n o, s.objects n = some o → Clear address s o.base
  owner : ∀ n m o o' k, s.objects n = some o → s.objects m = some o' → o.OwnsHeap k →
    o'.OwnsHeap k → n = m
  owned : ∀ k, s.memory (.heap k) ≠ none → ∃ n o, s.objects n = some o ∧ o.OwnsHeap k
  tmpBuf : s.memory .tmpBuf = none
  history : s.history = t.history

variable {address : F → ℕ} {t : Table ι V F} {s s' : State ι V F}

theorem Holds.frame {n : ι} {o : Object ι F} {c : Option (Callable V F)}
    (h : Holds address s n o c) (hobj : s'.memory (.object n) = s.memory (.object n))
    (hheap : ∀ k, o.OwnsHeap k → s'.memory (.heap k) = s.memory (.heap k)) :
    Holds address s' n o c := by
  cases h with
  | inline base ty value off hoff hmem => exact .inline base ty value off hoff (hobj.trans hmem)
  | remote base st c hr hmem =>
    exact .remote base st c (hr.frame fun k a ha => hheap k ⟨a, ha⟩) (hobj.trans hmem)

theorem Holds.heap_used {n : ι} {o : Object ι F} {c : Option (Callable V F)}
    (h : Holds address s n o c) {k : ℕ} (hk : o.OwnsHeap k) : s.memory (.heap k) ≠ none := by
  cases h with
  | inline base ty value off hoff hmem => exact (not_ownsHeap_inlineObject _ _ _ _ _ hk).elim
  | remote base st c hr hmem =>
    obtain ⟨a, ha⟩ := hk
    cases hr with
    | empty => cases ha
    | function f => cases ha
    | heap ty value k' a' hty hheap =>
      cases ha
      rw [hheap]
      exact Option.some_ne_none _

theorem not_ownsHeap_empty (base k : ℕ) : ¬ (⟨base, {}⟩ : Object ι F).OwnsHeap k := by
  rintro ⟨a, ha⟩
  cases ha

theorem Refines.exists_entry (h : Refines address t s) {n : ι} {o : Object ι F}
    (ho : s.objects n = some o) : ∃ c, t.entries n = some c ∧ Holds address s n o c := by
  cases hc : t.entries n with
  | none =>
    rw [(h.absent n hc).1] at ho
    cases ho
  | some c =>
    obtain ⟨o', ho', hh⟩ := h.present n c hc
    rw [ho'] at ho
    cases ho
    exact ⟨c, rfl, hh⟩

theorem Refines.record (h : Refines address t s) (e : Event V F) :
    Refines address (t.record e) (s.record e) where
  absent := h.absent
  present n c hc := by
    obtain ⟨o, ho, hh⟩ := h.present n c hc
    exact ⟨o, ho, hh.frame rfl fun _ _ => rfl⟩
  aligned := h.aligned
  clear n o ho := ⟨(h.clear n o ho).heap, (h.clear n o ho).code⟩
  owner := h.owner
  owned := h.owned
  tmpBuf := h.tmpBuf
  history := by
    show s.history ++ [e] = t.history ++ [e]
    rw [h.history]

variable [DecidableEq ι]

theorem Refines.add (h : Refines address t s) {n : ι} (hn : t.entries n = none) {base : ℕ}
    (hp : ObjectPlaced address s base) :
    Refines address (t.set n (some none)) (s.setObject n (some ⟨base, {}⟩)) := by
  have hcases : ∀ m o, (s.setObject n (some ⟨base, {}⟩)).objects m = some o →
      o = ⟨base, {}⟩ ∨ s.objects m = some o := by
    intro m o ho
    rcases s.setObject_eq_iff.mp ho with ⟨-, ho⟩ | ⟨-, ho⟩
    · exact .inl (Option.some.inj ho).symm
    · exact .inr ho
  refine ⟨?_, ?_, ?_, ?_, ?_, ?_, h.tmpBuf, h.history⟩
  · intro m hm
    rcases t.set_eq_iff.mp hm with ⟨-, hm⟩ | ⟨hmn, hm⟩
    · cases hm
    · rw [State.setObject_ne _ hmn]
      exact h.absent m hm
  · intro m c hc
    rcases t.set_eq_iff.mp hc with ⟨rfl, hcn⟩ | ⟨hmn, hc⟩
    · cases hcn
      exact ⟨_, State.setObject_self _ _ _, .remote base {} none .empty (h.absent m hn).2⟩
    · obtain ⟨o, ho, hh⟩ := h.present m c hc
      exact ⟨o, (State.setObject_ne _ hmn _).trans ho, hh.frame rfl fun _ _ => rfl⟩
  · intro m o ho
    rcases hcases m o ho with rfl | ho
    · exact hp.aligned
    · exact h.aligned m o ho
  · intro m o ho
    rcases hcases m o ho with rfl | ho
    · exact ⟨hp.offHeap, hp.offCode⟩
    · exact ⟨(h.clear m o ho).heap, (h.clear m o ho).code⟩
  · intro m m' o o' k ho ho' hk hk'
    rcases hcases m o ho with rfl | ho
    · exact (not_ownsHeap_empty _ _ hk).elim
    rcases hcases m' o' ho' with rfl | ho'
    · exact (not_ownsHeap_empty _ _ hk').elim
    · exact h.owner m m' o o' k ho ho' hk hk'
  · intro k hk
    obtain ⟨m, o, ho, hown⟩ := h.owned k hk
    have hmn : m ≠ n := by
      rintro rfl
      rw [(h.absent m hn).1] at ho
      cases ho
    exact ⟨m, o, (State.setObject_ne _ hmn _).trans ho, hown⟩

theorem Refines.remove (h : Refines address t s) {n : ι} {base : ℕ}
    (ho : s.objects n = some ⟨base, {}⟩) :
    Refines address (t.set n none) (s.setObject n none) := by
  have hkept : ∀ m o, (s.setObject n none).objects m = some o → s.objects m = some o := by
    intro m o hm
    rcases s.setObject_eq_iff.mp hm with ⟨-, hm⟩ | ⟨-, hm⟩
    · cases hm
    · exact hm
  refine ⟨?_, ?_, ?_, ?_, ?_, ?_, h.tmpBuf, h.history⟩
  · intro m hm
    rcases t.set_eq_iff.mp hm with ⟨rfl, -⟩ | ⟨hmn, hm⟩
    · obtain ⟨c, hc, hh⟩ := h.exists_entry ho
      refine ⟨State.setObject_self _ _ _, ?_⟩
      generalize hoe : (⟨base, {}⟩ : Object ι F) = o at hh
      cases hh with
      | inline base' ty value off hoff hmem => cases hoe
      | remote base' st c hr hmem => exact hmem
    · rw [State.setObject_ne _ hmn]
      exact h.absent m hm
  · intro m c hc
    rcases t.set_eq_iff.mp hc with ⟨-, hc⟩ | ⟨hmn, hc⟩
    · cases hc
    · obtain ⟨o, hm, hh⟩ := h.present m c hc
      exact ⟨o, (State.setObject_ne _ hmn _).trans hm, hh.frame rfl fun _ _ => rfl⟩
  · exact fun m o hm => h.aligned m o (hkept m o hm)
  · intro m o hm
    have hc := h.clear m o (hkept m o hm)
    exact ⟨hc.heap, hc.code⟩
  · exact fun m m' o o' k hm hm' => h.owner m m' o o' k (hkept m o hm) (hkept m' o' hm')
  · intro k hk
    obtain ⟨m, o, hm, hown⟩ := h.owned k hk
    have hmn : m ≠ n := by
      rintro rfl
      rw [ho] at hm
      cases hm
      exact not_ownsHeap_empty _ _ hown
    exact ⟨m, o, (State.setObject_ne _ hmn _).trans hm, hown⟩

section Exchange

variable {first second : ι} {f g f' g' : Object ι F}

theorem Exchanged.exists_after (hx : Exchanged s s' first second f g f' g')
    (hf : s.objects first = some f) (hg : s.objects second = some g) {m : ι} {r : Object ι F}
    (hr : s.objects m = some r) :
    ∃ p, s'.objects (Equiv.swap first second m) = some p ∧ ∀ k, p.OwnsHeap k ↔ r.OwnsHeap k := by
  -- what an object owned, the other one of the two owns now
  by_cases hm : m = first
  · subst hm
    rw [hf] at hr
    cases hr
    rw [Equiv.swap_apply_left]
    exact ⟨g', hx.atSecond, hx.heapSecond⟩
  by_cases hm' : m = second
  · subst hm'
    rw [hg] at hr
    cases hr
    rw [Equiv.swap_apply_right]
    exact ⟨f', hx.atFirst, hx.heapFirst⟩
  · rw [Equiv.swap_apply_of_ne_of_ne hm hm']
    exact ⟨r, (hx.others m hm hm').trans hr, fun k => Iff.rfl⟩

theorem Exchanged.exists_before (hx : Exchanged s s' first second f g f' g')
    (hf : s.objects first = some f) (hg : s.objects second = some g) {m : ι} {p : Object ι F}
    (hp : s'.objects m = some p) : ∃ q r, s.objects m = some q ∧ p.base = q.base ∧
      s.objects (Equiv.swap first second m) = some r ∧ ∀ k, p.OwnsHeap k ↔ r.OwnsHeap k := by
  by_cases hm : m = first
  · subst hm
    rw [hx.atFirst] at hp
    cases hp
    rw [Equiv.swap_apply_left]
    exact ⟨f, g, hf, hx.baseFirst, hg, hx.heapFirst⟩
  by_cases hm' : m = second
  · subst hm'
    rw [hx.atSecond] at hp
    cases hp
    rw [Equiv.swap_apply_right]
    exact ⟨g, f, hg, hx.baseSecond, hf, hx.heapSecond⟩
  · rw [hx.others m hm hm'] at hp
    rw [Equiv.swap_apply_of_ne_of_ne hm hm']
    exact ⟨p, p, hp, rfl, hp, fun k => Iff.rfl⟩

theorem Refines.exchange (h : Refines address t s) {c d : Option (Callable V F)}
    (hf : s.objects first = some f) (hg : s.objects second = some g)
    (hx : Exchanged s s' first second f g f' g') (hd : Holds address s' first f' d)
    (hc : Holds address s' second g' c) :
    Refines address ((t.set first (some d)).set second (some c)) s' := by
  have hheap : ∀ k, s'.memory (.heap k) = s.memory (.heap k) :=
    fun k => hx.memory _ (by simp) (by simp)
  refine ⟨?_, ?_, ?_, ?_, ?_, ?_, ?_, hx.history.trans h.history⟩
  · intro m hm
    rcases Table.set_eq_iff _ |>.mp hm with ⟨-, hm⟩ | ⟨hm₂, hm⟩
    · cases hm
    rcases t.set_eq_iff.mp hm with ⟨-, hm⟩ | ⟨hm₁, hm⟩
    · cases hm
    rw [hx.others m hm₁ hm₂, hx.memory _ (by simp [hm₁]) (by simp [hm₂])]
    exact h.absent m hm
  · intro m e he
    rcases Table.set_eq_iff _ |>.mp he with ⟨rfl, hce⟩ | ⟨hm₂, he⟩
    · cases hce
      exact ⟨g', hx.atSecond, hc⟩
    rcases t.set_eq_iff.mp he with ⟨rfl, hde⟩ | ⟨hm₁, he⟩
    · cases hde
      exact ⟨f', hx.atFirst, hd⟩
    obtain ⟨o, ho, hh⟩ := h.present m e he
    refine ⟨o, (hx.others m hm₁ hm₂).trans ho, hh.frame ?_ fun k _ => hheap k⟩
    exact hx.memory _ (by simp [hm₁]) (by simp [hm₂])
  · intro m p hp
    obtain ⟨q, -, hq, hpq, -⟩ := hx.exists_before hf hg hp
    rw [hpq]
    exact h.aligned m q hq
  · intro m p hp
    obtain ⟨q, -, hq, hpq, -⟩ := hx.exists_before hf hg hp
    rw [hpq]
    refine ⟨fun k slot hslot => ?_, (h.clear m q hq).code⟩
    rw [hheap k] at hslot
    exact (h.clear m q hq).heap k slot hslot
  · intro m m' p p' k hp hp' hk hk'
    obtain ⟨-, r, -, -, hr, hkr⟩ := hx.exists_before hf hg hp
    obtain ⟨-, r', -, -, hr', hkr'⟩ := hx.exists_before hf hg hp'
    exact (Equiv.swap first second).injective
      (h.owner _ _ r r' k hr hr' ((hkr k).mp hk) ((hkr' k).mp hk'))
  · intro k hk
    rw [hheap k] at hk
    obtain ⟨m, r, hr, hkr⟩ := h.owned k hk
    obtain ⟨p, hp, hpr⟩ := hx.exists_after hf hg hr
    exact ⟨_, p, hp, (hpr k).mpr hkr⟩
  · rw [hx.memory _ (by simp) (by simp)]
    exact h.tmpBuf

end Exchange

/-- `s'` differs from `s` in what the object `n` holds, in its storage or in a heap block of
its own. -/
structure Touches (s s' : State ι V F) (n : ι) (o o' : Object ι F) : Prop where
  objects : s'.objects = (s.setObject n (some o')).objects
  base : o'.base = o.base
  storages : ∀ m, m ≠ n → s'.memory (.object m) = s.memory (.object m)
  heap : ∀ k, ¬ o.OwnsHeap k → ¬ o'.OwnsHeap k → s'.memory (.heap k) = s.memory (.heap k)
  fresh : ∀ k, o'.OwnsHeap k → o.OwnsHeap k ∨ s.memory (.heap k) = none
  freed : ∀ k, o.OwnsHeap k → s'.memory (.heap k) ≠ none → o'.OwnsHeap k
  clear : ∀ k slot, o'.OwnsHeap k → s'.memory (.heap k) = some slot →
    ∀ m p, s.objects m = some p → ¬ InStorage p.base slot.address
  tmpBuf : s'.memory .tmpBuf = s.memory .tmpBuf
  history : s'.history = s.history

section Update

variable {n : ι} {o o' : Object ι F}

theorem Touches.self (ht : Touches s s' n o o') : s'.objects n = some o' := by
  rw [ht.objects]
  exact State.setObject_self _ _ _

theorem Touches.other (ht : Touches s s' n o o') {m : ι} (hm : m ≠ n) :
    s'.objects m = s.objects m := by
  rw [ht.objects]
  exact State.setObject_ne _ hm _

theorem Touches.exists_base (ht : Touches s s' n o o') (ho : s.objects n = some o) {m : ι}
    {p : Object ι F} (hp : s'.objects m = some p) :
    ∃ q, s.objects m = some q ∧ p.base = q.base := by
  by_cases hm : m = n
  · subst hm
    rw [ht.self] at hp
    cases hp
    exact ⟨o, ho, ht.base⟩
  · rw [ht.other hm] at hp
    exact ⟨p, hp, rfl⟩

theorem Refines.not_touched (h : Refines address t s) (ht : Touches s s' n o o')
    (ho : s.objects n = some o) {m : ι} {p : Object ι F} (hm : m ≠ n) (hp : s.objects m = some p)
    {k : ℕ} (hk : p.OwnsHeap k) : ¬ o.OwnsHeap k ∧ ¬ o'.OwnsHeap k := by
  -- a block owned by another object is neither freed nor taken
  have hno : ¬ o.OwnsHeap k := fun hok => hm (h.owner m n p o k hp ho hk hok)
  refine ⟨hno, fun hok => ?_⟩
  obtain ⟨d, hd, hhd⟩ := h.exists_entry hp
  rcases ht.fresh k hok with hok | hnone
  · exact hno hok
  · exact hhd.heap_used hk hnone

theorem Refines.update (h : Refines address t s) {c : Option (Callable V F)}
    (ho : s.objects n = some o) (ht : Touches s s' n o o') (hh : Holds address s' n o' c) :
    Refines address (t.set n (some c)) s' := by
  refine ⟨?_, ?_, ?_, ?_, ?_, ?_, ht.tmpBuf.trans h.tmpBuf, ht.history.trans h.history⟩
  · intro m hm
    rcases t.set_eq_iff.mp hm with ⟨-, hm⟩ | ⟨hmn, hm⟩
    · cases hm
    rw [ht.other hmn, ht.storages m hmn]
    exact h.absent m hm
  · intro m d hd
    rcases t.set_eq_iff.mp hd with ⟨rfl, hcd⟩ | ⟨hmn, hd⟩
    · cases hcd
      exact ⟨o', ht.self, hh⟩
    · obtain ⟨p, hp, hhp⟩ := h.present m d hd
      refine ⟨p, (ht.other hmn).trans hp, hhp.frame (ht.storages m hmn) fun k hk => ?_⟩
      obtain ⟨h₁, h₂⟩ := h.not_touched ht ho hmn hp hk
      exact ht.heap k h₁ h₂
  · intro m p hp
    obtain ⟨q, hq, hpq⟩ := ht.exists_base ho hp
    rw [hpq]
    exact h.aligned m q hq
  · intro m p hp
    obtain ⟨q, hq, hpq⟩ := ht.exists_base ho hp
    rw [hpq]
    refine ⟨fun k slot hslot => ?_, (h.clear m q hq).code⟩
    -- a block in use is owned by the changed object now, or it is as it was
    by_cases hown' : o'.OwnsHeap k
    · exact ht.clear k slot hown' hslot m q hq
    by_cases hown : o.OwnsHeap k
    · exact absurd (ht.freed k hown (by rw [hslot]; exact Option.some_ne_none _)) hown'
    · rw [ht.heap k hown hown'] at hslot
      exact (h.clear m q hq).heap k slot hslot
  · intro m m' p p' k hp hp' hk hk'
    by_cases hmn : m = n
    · by_cases hmn' : m' = n
      · rw [hmn, hmn']
      · subst hmn
        rw [ht.self] at hp
        cases hp
        rw [ht.other hmn'] at hp'
        exact absurd hk (h.not_touched ht ho hmn' hp' hk').2
    · rw [ht.other hmn] at hp
      by_cases hmn' : m' = n
      · subst hmn'
        rw [ht.self] at hp'
        cases hp'
        exact absurd hk' (h.not_touched ht ho hmn hp hk).2
      · rw [ht.other hmn'] at hp'
        exact h.owner m m' p p' k hp hp' hk hk'
  · intro k hk
    by_cases hown' : o'.OwnsHeap k
    · exact ⟨n, o', ht.self, hown'⟩
    by_cases hown : o.OwnsHeap k
    · exact absurd (ht.freed k hown hk) hown'
    · rw [ht.heap k hown hown'] at hk
      obtain ⟨m, p, hp, hpk⟩ := h.owned k hk
      have hmn : m ≠ n := by
        rintro rfl
        rw [ho] at hp
        cases hp
        exact hown hpk
      exact ⟨m, p, (ht.other hmn).trans hp, hpk⟩

end Update

/-- A block that the object `n` may overwrite when it turns from `o` into `o'`: its own
storage, a heap block it takes or keeps, or one it frees. -/
inductive Footprint (s : State ι V F) (n : ι) (o o' : Object ι F) :
    Block ι F → Option (Slot V) → Prop where
  | storage (x : Option (Slot V)) (hown : ∀ k, o'.OwnsHeap k ↔ o.OwnsHeap k) :
      Footprint s n o o' (.object n) x
  | take (k : ℕ) (slot : Slot V) (hk : o'.OwnsHeap k)
      (hnew : o.OwnsHeap k ∨ s.memory (.heap k) = none)
      (hother : ∀ k', k' ≠ k → (o'.OwnsHeap k' ↔ o.OwnsHeap k'))
      (hclear : ∀ m p, s.objects m = some p → ¬ InStorage p.base slot.address) :
      Footprint s n o o' (.heap k) (some slot)
  | free (k : ℕ) (hk : o.OwnsHeap k) (hk' : ¬ o'.OwnsHeap k)
      (hother : ∀ k', k' ≠ k → (o'.OwnsHeap k' ↔ o.OwnsHeap k')) :
      Footprint s n o o' (.heap k) none

variable [DecidableEq F]

theorem Footprint.touches {n : ι} {o o' : Object ι F} {b : Block ι F} {x : Option (Slot V)}
    (h : Footprint s n o o' b x) (hbase : o'.base = o.base)
    (hclear : ∀ m p, s.objects m = some p → Clear address s p.base) :
    Touches s ((s.put b x).setObject n (some o')) n o o' := by
  cases h with
  | storage x hown =>
    have hheap : ∀ k, (s.put (.object n) x).memory (.heap k) = s.memory (.heap k) :=
      s.put_object_heap n x
    have hstorage : ∀ m, m ≠ n → (s.put (.object n) x).memory (.object m) = s.memory (.object m) :=
      fun m hm => s.put_ne (by simp [hm]) x
    refine ⟨rfl, hbase, hstorage, fun k _ _ => hheap k, ?_, ?_, ?_, s.put_object_tmpBuf n x, rfl⟩
    · exact fun k hk => .inl ((hown k).mp hk)
    · exact fun k hk _ => (hown k).mpr hk
    · intro k slot _ hslot m p hp
      exact (hclear m p hp).heap k slot ((hheap k).symm.trans hslot)
  | take k slot hk hnew hother hoff =>
    have hheap : ∀ k', k' ≠ k → (s.put (.heap k) (some slot)).memory (.heap k') =
        s.memory (.heap k') := fun k' hne => s.put_ne (by simp [hne]) _
    refine ⟨rfl, hbase, fun m _ => s.put_heap_object k (some slot) m, ?_, ?_, ?_, ?_,
      s.put_heap_tmpBuf k (some slot), rfl⟩
    · intro k' _ hk'
      exact hheap k' fun he => hk' (he ▸ hk)
    · intro k' hk'
      by_cases he : k' = k
      · exact he ▸ hnew
      · exact .inl ((hother k' he).mp hk')
    · intro k' hk' _
      by_cases he : k' = k
      · exact he ▸ hk
      · exact (hother k' he).mpr hk'
    · intro k' slot' _ hslot m p hp
      by_cases he : k' = k
      · subst he
        cases (s.put_self _ _).symm.trans hslot
        exact hoff m p hp
      · exact (hclear m p hp).heap k' slot' ((hheap k' he).symm.trans hslot)
  | free k hk hk' hother =>
    have hheap : ∀ k', k' ≠ k → (s.put (.heap k) none).memory (.heap k') =
        s.memory (.heap k') := fun k' hne => s.put_ne (by simp [hne]) _
    refine ⟨rfl, hbase, fun m _ => s.put_heap_object k none m, ?_, ?_, ?_, ?_,
      s.put_heap_tmpBuf k none, rfl⟩
    · intro k' hno _
      exact hheap k' fun he => hno (he ▸ hk)
    · intro j hj
      by_cases he : j = k
      · exact (hk' (he ▸ hj)).elim
      · exact .inl ((hother j he).mp hj)
    · intro j hj hne
      by_cases he : j = k
      · subst he
        exact (hne (s.put_self _ _)).elim
      · exact (hother j he).mpr hj
    · intro j slot hj hslot m p hp
      by_cases he : j = k
      · exact (hk' (he ▸ hj)).elim
      · exact (hclear m p hp).heap j slot ((hheap j he).symm.trans hslot)

theorem Refines.put (h : Refines address t s) {n : ι} {o : Object ι F} (o' : Object ι F)
    {b : Block ι F} {x : Option (Slot V)} {c : Option (Callable V F)} (ho : s.objects n = some o)
    (hb : Footprint s n o o' b x) (hbase : o'.base = o.base)
    (hh : Holds address (s.put b x) n o' c) :
    Refines address (t.set n (some c)) ((s.put b x).setObject n (some o')) :=
  h.update ho (hb.touches hbase h.clear) (hh.frame rfl fun _ _ => rfl)

end BadIo.UniqueFunction
