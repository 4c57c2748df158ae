import Mathlib.Data.List.Basic
import Mathlib.Order.Lattice
import Mathlib.Tactic.Common

namespace BadIo

variable {α κ : Type*} [LinearOrder κ] (key : α → κ)

def SortedBy (l : List α) : Prop := l.Pairwise fun a b => key a < key b

/-- The position of the first entry whose key is not below `x`. -/
def lowerBound (l : List α) (x : κ) : ℕ := (l.takeWhile fun a => key a < x).length

variable {key}

theorem lowerBound_cons_lt {a : α} {l : List α} {x : κ} (h : key a < x) :
    lowerBound key (a :: l) x = lowerBound key l x + 1 := by
  simp [lowerBound, h]

theorem lowerBound_cons_not_lt {a : α} {l : List α} {x : κ} (h : ¬ key a < x) :
    lowerBound key (a :: l) x = 0 := by
  simp [lowerBound, h]

theorem lowerBound_le (l : List α) (x : κ) : lowerBound key l x ≤ l.length :=
  (List.takeWhile_sublist _).length_le

theorem SortedBy.getElem?_lowerBound {l : List α} (h : SortedBy key l) {a : α} (ha : a ∈ l) :
    l[lowerBound key l (key a)]? = some a := by
  induction l with
  | nil => exact (List.not_mem_nil ha).elim
  | cons b l ih =>
    obtain ⟨hb, hl⟩ := List.pairwise_cons.mp h
    rcases List.mem_cons.mp ha with rfl | ha
    · rw [lowerBound_cons_not_lt (lt_irrefl _)]
      rfl
    · rw [lowerBound_cons_lt (hb a ha), List.getElem?_cons_succ]
      exact ih hl ha

/-- What stands at the lower bound tells whether the key occurs. -/
theorem SortedBy.found_iff {l : List α} (h : SortedBy key l) {x : κ} :
    (l[lowerBound key l x]?).map key = some x ↔ ∃ a ∈ l, key a = x := by
  constructor
  · intro hfound
    obtain ⟨a, ha, hx⟩ := Option.map_eq_some_iff.mp hfound
    exact ⟨a, List.mem_of_getElem? ha, hx⟩
  · rintro ⟨a, ha, rfl⟩
    rw [h.getElem?_lowerBound ha]
    rfl

theorem SortedBy.insertIdx {l : List α} (h : SortedBy key l) {a : α}
    (hnew : (l[lowerBound key l (key a)]?).map key ≠ some (key a)) :
    SortedBy key (l.insertIdx (lowerBound key l (key a)) a) := by
  induction l with
  | nil => exact List.pairwise_singleton _ _
  | cons b l ih =>
    obtain ⟨hb, hl⟩ := List.pairwise_cons.mp h
    by_cases hlt : key b < key a
    · rw [lowerBound_cons_lt hlt] at hnew ⊢
      rw [List.getElem?_cons_succ] at hnew
      rw [List.insertIdx_succ_cons]
      refine List.pairwise_cons.mpr ⟨fun c hc => ?_, ih hl hnew⟩
      rcases (List.mem_insertIdx (lowerBound_le l (key a))).mp hc with rfl | hc
      · exact hlt
      · exact hb c hc
    · rw [lowerBound_cons_not_lt hlt] at hnew ⊢
      rw [List.getElem?_cons_zero, Option.map_some] at hnew
      have hab : key a < key b :=
        lt_of_le_of_ne (not_lt.mp hlt) fun heq => hnew (congrArg some heq.symm)
      rw [List.insertIdx_zero]
      refine List.pairwise_cons.mpr ⟨fun c hc => ?_, h⟩
      rcases List.mem_cons.mp hc with rfl | hc
      · exact hab
      · exact lt_trans hab (hb c hc)

variable {β : Type*}

theorem insertIdx_length_append (l l' : List α) (a : α) :
    (l ++ l').insertIdx l.length a = l ++ a :: l' := by
  induction l with
  | nil => exact List.insertIdx_zero
  | cons b l ih =>
    rw [List.cons_append, List.length_cons, List.insertIdx_succ_cons, ih]
    rfl

theorem zip_reverse_insertIdx {l : List α} {m : List β} {i : ℕ} (hi : i ≤ l.length)
    (hlen : m.length = l.length) (a : α) (b : β) :
    ((l.insertIdx i a).zip (m.insertIdx (l.length - i) b).reverse).Perm
      ((a, b) :: l.zip m.reverse) := by
  obtain ⟨l₁, l₂, rfl, rfl⟩ : ∃ l₁ l₂, l = l₁ ++ l₂ ∧ i = l₁.length :=
    ⟨l.take i, l.drop i, (List.take_append_drop i l).symm, (List.length_take_of_le hi).symm⟩
  -- both vectors are split where the new entry goes
  rw [List.length_append] at hlen
  have hle : l₂.length ≤ m.length := by omega
  obtain ⟨m₁, m₂, rfl, hm₁⟩ : ∃ m₁ m₂, m = m₁ ++ m₂ ∧ m₁.length = l₂.length :=
    ⟨m.take l₂.length, m.drop l₂.length, (List.take_append_drop _ m).symm,
      List.length_take_of_le hle⟩
  rw [List.length_append] at hlen
  have hm₂ : l₁.length = m₂.reverse.length := by
    rw [List.length_reverse]
    omega
  have hi' : (l₁ ++ l₂).length - l₁.length = m₁.length := by
    rw [List.length_append]
    omega
  rw [hi', insertIdx_length_append, insertIdx_length_append, List.reverse_append,
    List.reverse_cons, List.append_assoc, List.singleton_append, List.zip_append hm₂,
    List.reverse_append, List.zip_append hm₂]
  exact List.perm_middle

end BadIo
