import Mathlib.Logic.Function.Basic

namespace BadIo

variable {ι φ : Type*}

def Exclusive (h : ι → Option φ) : Prop := ∀ ⦃i j f⦄, h i = some f → h j = some f → i = j

def Held (h : ι → Option φ) (f : φ) : Prop := ∃ i, h i = some f

theorem exclusive_none : Exclusive (fun _ : ι => (none : Option φ)) := nofun

variable [DecidableEq ι] {h : ι → Option φ} {i j : ι} {f g : φ}

def drop (h : ι → Option φ) (i : ι) : ι → Option φ := Function.update h i none

def give (h : ι → Option φ) (i : ι) (f : φ) : ι → Option φ := Function.update h i (some f)

/-- What `j` holds passes to `i`, in place of what `i` held. -/
def transfer (h : ι → Option φ) (i j : ι) : ι → Option φ :=
  Function.update (Function.update h j none) i (h j)

@[simp] theorem drop_self (h : ι → Option φ) (i : ι) : drop h i i = none := Function.update_self ..

@[simp] theorem give_self (h : ι → Option φ) (i : ι) (f : φ) : give h i f i = some f :=
  Function.update_self ..

@[simp] theorem transfer_self (h : ι → Option φ) (i j : ι) : transfer h i j i = h j :=
  Function.update_self ..

theorem transfer_source (h : ι → Option φ) (hij : i ≠ j) : transfer h i j j = none := by
  rw [transfer, Function.update_of_ne hij.symm, Function.update_self]

theorem drop_eq_some : drop h i j = some f ↔ j ≠ i ∧ h j = some f := by
  unfold drop
  by_cases hj : j = i
  · simp [hj]
  · simp [hj]

theorem give_eq_some : give h i f j = some g ↔ j = i ∧ f = g ∨ j ≠ i ∧ h j = some g := by
  unfold give
  by_cases hj : j = i
  · simp [hj]
  · simp [hj]

theorem transfer_eq_some (hij : i ≠ j) {k : ι} :
    transfer h i j k = some f ↔ k = i ∧ h j = some f ∨ k ≠ i ∧ k ≠ j ∧ h k = some f := by
  unfold transfer
  by_cases hk : k = i
  · simp [hk]
  · by_cases hkj : k = j
    · simp [hkj, hij.symm]
    · simp [hk, hkj]

theorem Exclusive.drop (hx : Exclusive h) (i : ι) : Exclusive (drop h i) := by
  intro a b f ha hb
  exact hx (drop_eq_some.mp ha).2 (drop_eq_some.mp hb).2

theorem Exclusive.give (hx : Exclusive h) (hf : ¬ Held h f) : Exclusive (give h i f) := by
  intro a b g ha hb
  rcases give_eq_some.mp ha with ⟨rfl, rfl⟩ | ⟨-, ha'⟩
  · rcases give_eq_some.mp hb with ⟨rfl, -⟩ | ⟨-, hb'⟩
    · rfl
    · exact absurd ⟨b, hb'⟩ hf
  · rcases give_eq_some.mp hb with ⟨rfl, rfl⟩ | ⟨-, hb'⟩
    · exact absurd ⟨a, ha'⟩ hf
    · exact hx ha' hb'

theorem Exclusive.transfer (hx : Exclusive h) (hij : i ≠ j) : Exclusive (transfer h i j) := by
  intro a b f ha hb
  rcases (transfer_eq_some hij).mp ha with ⟨rfl, ha'⟩ | ⟨-, haj, ha'⟩
  · rcases (transfer_eq_some hij).mp hb with ⟨rfl, -⟩ | ⟨-, hbj, hb'⟩
    · rfl
    · exact absurd (hx hb' ha') hbj
  · rcases (transfer_eq_some hij).mp hb with ⟨rfl, hb'⟩ | ⟨-, -, hb'⟩
    · exact absurd (hx ha' hb') haj
    · exact hx ha' hb'

theorem held_drop (hx : Exclusive h) (hi : h i = some f) :
    Held (drop h i) g ↔ g ≠ f ∧ Held h g := by
  constructor
  · rintro ⟨k, hk⟩
    obtain ⟨hki, hk'⟩ := drop_eq_some.mp hk
    refine ⟨?_, k, hk'⟩
    rintro rfl
    exact hki (hx hk' hi)
  · rintro ⟨hg, k, hk⟩
    refine ⟨k, drop_eq_some.mpr ⟨?_, hk⟩⟩
    rintro rfl
    exact hg (Option.some.inj (hk.symm.trans hi))

theorem drop_of_none (hi : h i = none) : drop h i = h := by
  rw [drop, ← hi, Function.update_eq_self]

theorem held_give (hi : h i = none) : Held (give h i f) g ↔ g = f ∨ Held h g := by
  constructor
  · rintro ⟨k, hk⟩
    rcases give_eq_some.mp hk with ⟨-, rfl⟩ | ⟨-, hk'⟩
    · exact .inl rfl
    · exact .inr ⟨k, hk'⟩
  · rintro (rfl | ⟨k, hk⟩)
    · exact ⟨i, give_self h i g⟩
    · refine ⟨k, give_eq_some.mpr (.inr ⟨?_, hk⟩)⟩
      rintro rfl
      exact nomatch hi.symm.trans hk

theorem held_transfer (hij : i ≠ j) : Held (transfer h i j) g ↔ ∃ k, k ≠ i ∧ h k = some g := by
  constructor
  · rintro ⟨k, hk⟩
    rcases (transfer_eq_some hij).mp hk with ⟨-, hk'⟩ | ⟨hki, -, hk'⟩
    · exact ⟨j, hij.symm, hk'⟩
    · exact ⟨k, hki, hk'⟩
  · rintro ⟨k, hki, hk⟩
    by_cases hkj : k = j
    · subst hkj
      exact ⟨i, (transfer_self h i k).trans hk⟩
    · exact ⟨k, (transfer_eq_some hij).mpr (.inr ⟨hki, hkj, hk⟩)⟩

theorem held_transfer_of_none (hij : i ≠ j) (hi : h i = none) :
    Held (transfer h i j) g ↔ Held h g := by
  rw [held_transfer hij]
  constructor
  · exact fun ⟨k, _, hk⟩ => ⟨k, hk⟩
  · rintro ⟨k, hk⟩
    refine ⟨k, ?_, hk⟩
    rintro rfl
    exact nomatch hi.symm.trans hk

theorem held_transfer_of_some (hx : Exclusive h) (hij : i ≠ j) (hi : h i = some f) :
    Held (transfer h i j) g ↔ g ≠ f ∧ Held h g := by
  rw [held_transfer hij, ← held_drop hx hi]
  exact exists_congr fun k => drop_eq_some.symm

end BadIo
