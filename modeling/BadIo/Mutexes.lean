import BadIo.Threads

namespace BadIo

/-- Which mutexes a local state holds, and for which one it waits. -/
structure Locking (ℓ μ : Type*) where
  holds : ℓ → μ → Bool
  wants : ℓ → Option μ

variable {ι ℓ μ : Type*}

namespace Locking

variable (K : Locking ℓ μ)

/-- Every locked mutex has one holder, and every mutex with a holder is locked. -/
structure Guarded (locked : μ → Bool) (threads : ι → ℓ) : Prop where
  holding : ∀ i m, K.holds (threads i) m = true → locked m = true
  held : ∀ m, locked m = true → ∃ i, K.holds (threads i) m = true
  exclusive : ∀ i j m, K.holds (threads i) m = true → K.holds (threads j) m = true → i = j

def Turn (locked holds locked' holds' : Bool) : Prop :=
  locked' = locked ∧ holds' = holds ∨
    locked = false ∧ locked' = true ∧ holds' = true ∨
    holds = true ∧ locked' = false ∧ holds' = false

def Step (locked : μ → Bool) (l : ℓ) (locked' : μ → Bool) (l' : ℓ) : Prop :=
  ∀ m, Turn (locked m) (K.holds l m) (locked' m) (K.holds l' m)

/-- Waiting follows the rank: a thread waits only for a mutex above those that it holds. -/
def Ordered (rank : μ → ℕ) : Prop :=
  ∀ l m n, K.wants l = some m → K.holds l n = true → rank n < rank m

variable {K}

theorem guarded_idle {l : ℓ} (h : ∀ m, K.holds l m = false) :
    K.Guarded (fun _ => false) (fun _ : ι => l) where
  holding _ m hm := absurd hm (by simp [h m])
  held _ hm := absurd hm Bool.false_ne_true
  exclusive _ _ m hm := absurd hm (by simp [h m])

section Step

variable {locked locked' : μ → Bool} {threads : ι → ℓ} {i : ι} {l' : ℓ}

theorem Guarded.other (h : K.Guarded locked threads)
    (hs : K.Step locked (threads i) locked' l') {j : ι} {m : μ} (hj : j ≠ i)
    (hm : K.holds (threads j) m = true) : locked' m = true ∧ K.holds l' m = false := by
  have hl := h.holding j m hm
  rcases hs m with ⟨hl', hh⟩ | ⟨hfree, -, -⟩ | ⟨hheld, -, -⟩
  · refine ⟨hl'.trans hl, ?_⟩
    rw [hh]
    apply Bool.eq_false_iff.mpr
    exact fun hi => hj (h.exclusive j i m hm hi)
  · exact absurd (hfree.symm.trans hl) Bool.false_ne_true
  · exact absurd (h.exclusive j i m hm hheld) hj

variable [DecidableEq ι]

theorem Guarded.step (h : K.Guarded locked threads)
    (hs : K.Step locked (threads i) locked' l') :
    K.Guarded locked' (Function.update threads i l') := by
  refine ⟨fun j m hm => ?_, fun m hm => ?_, fun j k m hj hk => ?_⟩
  · by_cases hj : j = i
    · subst hj
      rw [Function.update_self] at hm
      rcases hs m with ⟨hl, hh⟩ | ⟨-, hl, -⟩ | ⟨-, -, hh⟩
      · exact hl.trans (h.holding j m (hh.symm.trans hm))
      · exact hl
      · exact absurd (hh.symm.trans hm) Bool.false_ne_true
    · rw [Function.update_of_ne hj] at hm
      exact (h.other hs hj hm).1
  · rcases hs m with ⟨hl, hh⟩ | ⟨-, -, hh⟩ | ⟨-, hl, -⟩
    · obtain ⟨j, hj⟩ := h.held m (hl.symm.trans hm)
      refine ⟨j, ?_⟩
      by_cases hji : j = i
      · subst hji
        rw [Function.update_self]
        exact hh.trans hj
      · rw [Function.update_of_ne hji]
        exact hj
    · exact ⟨i, by rw [Function.update_self]; exact hh⟩
    · exact absurd (hl.symm.trans hm) Bool.false_ne_true
  · by_cases hji : j = i
    · by_cases hki : k = i
      · exact hji.trans hki.symm
      · subst hji
        rw [Function.update_self] at hj
        rw [Function.update_of_ne hki] at hk
        exact absurd ((h.other hs hki hk).2.symm.trans hj) Bool.false_ne_true
    · rw [Function.update_of_ne hji] at hj
      by_cases hki : k = i
      · subst hki
        rw [Function.update_self] at hk
        exact absurd ((h.other hs hji hj).2.symm.trans hk) Bool.false_ne_true
      · rw [Function.update_of_ne hki] at hk
        exact h.exclusive j k m hj hk

end Step

/-- Ranked waiting has no cycle: where a mutex is held, some holder does not wait for a
locked one. -/
theorem Guarded.exists_unblocked {locked : μ → Bool} {threads : ι → ℓ}
    (h : K.Guarded locked threads) {rank : μ → ℕ} (hord : K.Ordered rank) (bound : ℕ)
    (hbound : ∀ m, rank m ≤ bound) {m : μ} (hm : locked m = true) :
    ∃ j n, K.holds (threads j) n = true ∧
      ∀ n', K.wants (threads j) = some n' → locked n' = false := by
  -- the induction is on how far the rank of the mutex is below the bound
  induction hd : bound - rank m using Nat.strong_induction_on generalizing m with
  | _ d ih =>
    obtain ⟨i, hi⟩ := h.held m hm
    cases hw : K.wants (threads i) with
    | none => exact ⟨i, m, hi, fun n' hn' => nomatch hw.symm.trans hn'⟩
    | some n =>
      cases hn : locked n with
      | false =>
        refine ⟨i, m, hi, fun n' hn' => ?_⟩
        obtain rfl := Option.some.inj (hw.symm.trans hn')
        exact hn
      | true =>
        have hlt := hord (threads i) n m hw hi
        have hle := hbound n
        exact ih (bound - rank n) (by omega) hn rfl

end Locking

end BadIo
