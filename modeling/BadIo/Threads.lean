import Mathlib.Algebra.Order.BigOperators.Group.Finset
import Mathlib.Algebra.BigOperators.Group.Finset.Piecewise
import BadIo.Machine

namespace BadIo

/-- A shared state and the local state of every thread. -/
structure Config (ι γ ℓ : Type*) where
  shared : γ
  threads : ι → ℓ

variable {ι γ ℓ α : Type*}

section Total

variable [Fintype ι] {A : Type*} [AddCommMonoid A]

def total (m : ℓ → A) (threads : ι → ℓ) : A := ∑ i, m (threads i)

theorem total_const (m : ℓ → A) (l : ℓ) (h : m l = 0) : total m (fun _ : ι => l) = 0 := by
  simp [total, h]

theorem total_nonneg (m : ℓ → ℤ) (threads : ι → ℓ) (h : ∀ i, 0 ≤ m (threads i)) :
    0 ≤ total m threads :=
  Finset.sum_nonneg fun i _ => h i

theorem le_total (m : ℓ → ℤ) (threads : ι → ℓ) (h : ∀ i, 0 ≤ m (threads i)) (i : ι) :
    m (threads i) ≤ total m threads :=
  Finset.single_le_sum (f := fun j => m (threads j)) (fun j _ => h j) (Finset.mem_univ i)

theorem exists_pos_of_total (m : ℓ → ℤ) (threads : ι → ℓ) (h : 0 < total m threads) :
    ∃ i, 0 < m (threads i) := by
  by_contra hn
  push Not at hn
  exact absurd h (not_lt.mpr (Finset.sum_nonpos fun i _ => hn i))

theorem total_update [DecidableEq ι] (m : ℓ → A) (threads : ι → ℓ) (i : ι) (l : ℓ) :
    total m (Function.update threads i l) + m (threads i) = total m threads + m l := by
  have h := Finset.sum_update_of_mem (Finset.mem_univ i) (fun j => m (threads j)) (m l)
  have hu : (fun j => m (Function.update threads i l j)) =
      Function.update (fun j => m (threads j)) i (m l) := by
    funext j
    by_cases hj : j = i
    · subst hj; simp
    · simp [hj]
  unfold total
  rw [hu, h, Finset.sdiff_singleton_eq_erase, add_assoc, add_comm,
    Finset.sum_erase_add _ _ (Finset.mem_univ i)]

end Total

variable [DecidableEq ι]

/-- Any thread may take the next atomic action. -/
def interleave (step : γ → ℓ → α → Option (γ × ℓ)) : Machine (Config ι γ ℓ) (ι × α) where
  step s a := (step s.shared (s.threads a.1) a.2).map fun p =>
    ⟨p.1, Function.update s.threads a.1 p.2⟩

theorem interleave_step {step : γ → ℓ → α → Option (γ × ℓ)} {s s' : Config ι γ ℓ} {a : ι × α} :
    (interleave step).step s a = some s' ↔
      ∃ g l, step s.shared (s.threads a.1) a.2 = some (g, l) ∧
        s' = ⟨g, Function.update s.threads a.1 l⟩ := by
  simp only [interleave, Option.map_eq_some_iff, Prod.exists]
  exact ⟨fun ⟨g, l, h, e⟩ => ⟨g, l, h, e.symm⟩, fun ⟨g, l, h, e⟩ => ⟨g, l, h, e.symm⟩⟩

theorem forall_update {P : ℓ → Prop} {threads : ι → ℓ} {i : ι} {l : ℓ}
    (h : ∀ j, P (threads j)) (hl : P l) (j : ι) : P (Function.update threads i l j) := by
  by_cases hj : j = i
  · subst hj; simpa using hl
  · simpa [hj] using h j

end BadIo
