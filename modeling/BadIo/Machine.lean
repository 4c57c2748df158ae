import Mathlib.Data.List.Basic
import Mathlib.Data.Option.Basic

namespace BadIo

/-- A transition system whose nondeterminism is resolved by its actions; `none` means that the
action is not enabled. -/
structure Machine (σ α : Type*) where
  step : σ → α → Option σ

namespace Machine

variable {σ τ α : Type*} (M : Machine σ α)

def run : σ → List α → Option σ
  | s, [] => some s
  | s, a :: as => (M.step s a).bind fun s' => run s' as

/-- Every step that the actions take from `s` meets `Q`. -/
def Along (Q : σ → α → σ → Prop) : σ → List α → Prop
  | _, [] => True
  | s, a :: as => ∀ s', M.step s a = some s' → Q s a s' ∧ Along Q s' as

def Reachable (s₀ s : σ) : Prop := ∃ as, M.run s₀ as = some s

@[simp] theorem run_nil (s : σ) : M.run s [] = some s := rfl

theorem run_cons (s : σ) (a : α) (as : List α) :
    M.run s (a :: as) = (M.step s a).bind fun s' => M.run s' as := rfl

theorem run_cons_eq_some {s t : σ} {a : α} {as : List α} :
    M.run s (a :: as) = some t ↔ ∃ s', M.step s a = some s' ∧ M.run s' as = some t := by
  rw [run_cons, Option.bind_eq_some_iff]

theorem run_append (s : σ) (as bs : List α) :
    M.run s (as ++ bs) = (M.run s as).bind fun s' => M.run s' bs := by
  induction as generalizing s with
  | nil => rfl
  | cons a as ih =>
    rw [List.cons_append, run_cons, run_cons, Option.bind_assoc]
    exact congrArg _ (funext fun s' => ih s')

theorem Reachable.refl (s : σ) : M.Reachable s s := ⟨[], rfl⟩

variable {M}

theorem Reachable.tail {s₀ s s' : σ} {a : α} (h : M.Reachable s₀ s)
    (hs : M.step s a = some s') : M.Reachable s₀ s' := by
  obtain ⟨as, h⟩ := h
  refine ⟨as ++ [a], ?_⟩
  rw [run_append, h, Option.bind_some, run_cons, hs]
  rfl

theorem Reachable.trans {s t u : σ} (h : M.Reachable s t) (h' : M.Reachable t u) :
    M.Reachable s u := by
  obtain ⟨as, h⟩ := h
  obtain ⟨bs, h'⟩ := h'
  exact ⟨as ++ bs, by rw [run_append, h, Option.bind_some, h']⟩

theorem Reachable.single {s t : σ} {a : α} (h : M.step s a = some t) : M.Reachable s t :=
  (Reachable.refl M s).tail h

/-- What holds at the start and is kept by the steps that meet `C` holds at the end of
every run whose steps all meet `C`. -/
theorem invariant_of_along {I : σ → Prop} {C : σ → α → σ → Prop}
    (hstep : ∀ s a s', I s → C s a s' → M.step s a = some s' → I s')
    {s t : σ} {as : List α} (hI : I s) (hC : M.Along C s as) (h : M.run s as = some t) : I t := by
  induction as generalizing s with
  | nil => exact Option.some.inj h ▸ hI
  | cons a as ih =>
    obtain ⟨s', hs, hr⟩ := M.run_cons_eq_some.mp h
    obtain ⟨hc, hC'⟩ := hC s' hs
    exact ih (hstep s a s' hI hc hs) hC' hr

theorem along_true (s : σ) (as : List α) : M.Along (fun _ _ _ => True) s as := by
  induction as generalizing s with
  | nil => trivial
  | cons a as ih => exact fun s' _ => ⟨trivial, ih s'⟩

theorem along_of_forall {P : α → Prop} {s : σ} {as : List α} (h : ∀ a ∈ as, P a) :
    M.Along (fun _ a _ => P a) s as := by
  induction as generalizing s with
  | nil => trivial
  | cons a as ih =>
    exact fun s' _ => ⟨h a List.mem_cons_self, ih fun b hb => h b (List.mem_cons_of_mem a hb)⟩

/-- The rule for an invariant that every step keeps. -/
theorem invariant_of_step {I : σ → Prop} (hstep : ∀ s a s', I s → M.step s a = some s' → I s')
    {s t : σ} {as : List α} (hI : I s) (h : M.run s as = some t) : I t :=
  invariant_of_along (fun s a s' hI _ hs => hstep s a s' hI hs) hI (along_true s as) h

/-- Under an invariant, a property of the steps that meet `C` holds along every run
whose steps all meet `C`. -/
theorem along_of_along {I : σ → Prop} {C Q : σ → α → σ → Prop}
    (hstep : ∀ s a s', I s → C s a s' → M.step s a = some s' → I s' ∧ Q s a s')
    {s : σ} {as : List α} (hI : I s) (hC : M.Along C s as) : M.Along Q s as := by
  induction as generalizing s with
  | nil => trivial
  | cons a as ih =>
    intro s' hs
    obtain ⟨hc, hC'⟩ := hC s' hs
    obtain ⟨hI', hq⟩ := hstep s a s' hI hc hs
    exact ⟨hq, ih hI' hC'⟩

theorem along_cons {Q : σ → α → σ → Prop} {s t : σ} {a : α} {as : List α}
    (h : M.step s a = some t) : M.Along Q s (a :: as) ↔ Q s a t ∧ M.Along Q t as :=
  ⟨fun ha => ha t h, fun ha _ hs => Option.some.inj (h.symm.trans hs) ▸ ha⟩

theorem Along.nth {Q : σ → α → σ → Prop} {s t u : σ} {a : α} {as : List α} (h : M.Along Q s as)
    (n : ℕ) (hr : M.run s (as.take n) = some t) (ha : as[n]? = some a) (hs : M.step t a = some u) :
    Q t a u := by
  induction n generalizing s as with
  | zero =>
    cases as with
    | nil => cases ha
    | cons b as =>
      cases ha
      cases hr
      exact (h u hs).1
  | succ n ih =>
    cases as with
    | nil => cases ha
    | cons b as =>
      obtain ⟨s', hs', hr'⟩ := M.run_cons_eq_some.mp hr
      exact ih (h s' hs').2 hr' ha

theorem Along.and {P Q : σ → α → σ → Prop} {s : σ} {as : List α} (hP : M.Along P s as)
    (hQ : M.Along Q s as) : M.Along (fun s a s' => P s a s' ∧ Q s a s') s as := by
  induction as generalizing s with
  | nil => trivial
  | cons a as ih =>
    intro s' hs
    obtain ⟨hp, hP'⟩ := hP s' hs
    obtain ⟨hq, hQ'⟩ := hQ s' hs
    exact ⟨⟨hp, hq⟩, ih hP' hQ'⟩

/-- When, under an invariant, a step meets `Q` exactly if it meets `C`, and the steps
that meet `C` keep the invariant, a run meets `Q` throughout exactly if it meets `C`
throughout.  All steps are taken to meet `A`. -/
theorem along_iff_along {I : σ → Prop} {A C Q : σ → α → σ → Prop}
    (hstep : ∀ s a s', I s → A s a s' → M.step s a = some s' → (Q s a s' ↔ C s a s'))
    (hkeep : ∀ s a s', I s → A s a s' → C s a s' → M.step s a = some s' → I s')
    {s : σ} {as : List α} (hI : I s) (hA : M.Along A s as) :
    M.Along Q s as ↔ M.Along C s as := by
  constructor
  · intro hQ
    refine along_of_along (I := I) (fun s a s' hI hc hs => ?_) hI (hA.and hQ)
    have hC := (hstep s a s' hI hc.1 hs).mp hc.2
    exact ⟨hkeep s a s' hI hc.1 hC hs, hC⟩
  · intro hC
    refine along_of_along (I := I) (fun s a s' hI hc hs => ?_) hI (hA.and hC)
    exact ⟨hkeep s a s' hI hc.1 hc.2 hs, (hstep s a s' hI hc.1 hs).mpr hc.2⟩

/-- Each step of `M` is matched by the actions `label s a` of `N`, and `R` is kept. -/
def Simulates {β : Type*} (N : Machine τ β) (R : σ → τ → Prop) (label : σ → α → List β)
    (M : Machine σ α) : Prop :=
  ∀ s t a s', R s t → M.step s a = some s' → ∃ t', N.run t (label s a) = some t' ∧ R s' t'

theorem Simulates.run {β : Type*} {N : Machine τ β} {R : σ → τ → Prop} {label : σ → α → List β}
    (hsim : N.Simulates R label M) {s s' : σ} {t : τ} {as : List α} (hR : R s t)
    (h : M.run s as = some s') : ∃ bs t', N.run t bs = some t' ∧ R s' t' := by
  induction as generalizing s t with
  | nil => exact ⟨[], t, rfl, Option.some.inj h ▸ hR⟩
  | cons a as ih =>
    obtain ⟨s₁, hs, hr⟩ := M.run_cons_eq_some.mp h
    obtain ⟨t₁, ht, hR₁⟩ := hsim s t a s₁ hR hs
    obtain ⟨bs, t', hb, hR'⟩ := ih hR₁ hr
    refine ⟨label s a ++ bs, t', ?_, hR'⟩
    rw [run_append, ht, Option.bind_some, hb]

/-- `P` holds before each step that the actions take from `s`: a promise of the
environment, which may depend on the state. -/
def Before (M : Machine σ α) (P : σ → α → Prop) : σ → List α → Prop
  | _, [] => True
  | s, a :: as => P s a ∧ ∀ s', M.step s a = some s' → Before M P s' as

/-- In lock step: where the environment keeps its promise, `N` can follow every run of the
specification `M`, which sees only `f a` of an action `a`. -/
theorem run_of_lockstep {β : Type*} {N : Machine τ β} {R : σ → τ → Prop} {P : τ → β → Prop}
    {f : β → α} (hsim : ∀ s t b s', R s t → P t b → M.step s (f b) = some s' →
      ∃ t', N.step t b = some t' ∧ R s' t')
    {s s' : σ} {t : τ} {bs : List β} (hR : R s t) (hP : N.Before P t bs)
    (h : M.run s (bs.map f) = some s') : ∃ t', N.run t bs = some t' ∧ R s' t' := by
  induction bs generalizing s t with
  | nil => exact ⟨t, rfl, Option.some.inj h ▸ hR⟩
  | cons b bs ih =>
    obtain ⟨s₁, hs, hr⟩ := M.run_cons_eq_some.mp h
    obtain ⟨t₁, ht, hR₁⟩ := hsim s t b s₁ hR hP.1 hs
    obtain ⟨t', ht', hR'⟩ := ih hR₁ (hP.2 t₁ ht) hr
    exact ⟨t', N.run_cons_eq_some.mpr ⟨t₁, ht, ht'⟩, hR'⟩

def Meets (M : Machine σ α) (D : σ → α → Prop) : σ → List α → Prop
  | _, [] => False
  | s, a :: as => D s a ∨ ∃ s', M.step s a = some s' ∧ Meets M D s' as

theorem Meets.append {D : σ → α → Prop} {s : σ} {as : List α} (h : M.Meets D s as)
    (bs : List α) : M.Meets D s (as ++ bs) := by
  induction as generalizing s with
  | nil => exact h.elim
  | cons a as ih =>
    rcases h with h | ⟨s', hs, h⟩
    · exact .inl h
    · exact .inr ⟨s', hs, ih h⟩

theorem Meets.of_run {D : σ → α → Prop} {s t : σ} {as bs : List α} (hr : M.run s as = some t)
    (h : M.Meets D t bs) : M.Meets D s (as ++ bs) := by
  induction as generalizing s with
  | nil =>
    obtain rfl := Option.some.inj hr
    exact h
  | cons a as ih =>
    obtain ⟨s', hs, hr'⟩ := M.run_cons_eq_some.mp hr
    exact .inr ⟨s', hs, ih hr'⟩

theorem Meets.stuck_of_lockstep {β : Type*} {N : Machine τ β} {R : σ → τ → Prop}
    {P : τ → β → Prop} {D : σ → α → Prop} {f : β → α}
    (hsim : ∀ s t b s', R s t → P t b → M.step s (f b) = some s' →
      ∃ t', N.step t b = some t' ∧ R s' t')
    (hstuck : ∀ s t b, R s t → D s (f b) → N.step t b = none)
    {s : σ} {t : τ} {bs : List β} (hR : R s t) (hP : N.Before P t bs)
    (h : M.Meets D s (bs.map f)) : N.run t bs = none := by
  induction bs generalizing s t with
  | nil => exact h.elim
  | cons b bs ih =>
    rw [run_cons]
    rcases h with h | ⟨s', hs, h⟩
    · rw [hstuck s t b hR h, Option.bind_none]
    · obtain ⟨t', ht, hR'⟩ := hsim s t b s' hR hP.1 hs
      rw [ht, Option.bind_some]
      exact ih hR' (hP.2 t' ht) h

/-- In lock step with a specification, two conditions on the steps agree along a whole run if
they agree in related states. -/
theorem before_iff_of_lockstep {β : Type*} {N : Machine τ β} {R : σ → τ → Prop}
    {A P C : τ → β → Prop} {f : β → α}
    (hkeep : ∀ s t b s' t', R s t → A t b → M.step s (f b) = some s' → N.step t b = some t' →
      R s' t')
    (hiff : ∀ s t b s', R s t → A t b → M.step s (f b) = some s' → (P t b ↔ C t b))
    {s s' : σ} {t : τ} {bs : List β} (hR : R s t) (hA : N.Before A t bs)
    (h : M.run s (bs.map f) = some s') : N.Before P t bs ↔ N.Before C t bs := by
  induction bs generalizing s t with
  | nil => exact Iff.rfl
  | cons b bs ih =>
    obtain ⟨s₁, hs, hr⟩ := M.run_cons_eq_some.mp h
    apply and_congr (hiff s t b s₁ hR hA.1 hs)
    apply forall_congr'
    intro t₁
    apply forall_congr'
    intro ht
    exact ih (hkeep s t b s₁ t₁ hR hA.1 hs ht) (hA.2 t₁ ht) hr

theorem Before.and {P Q : σ → α → Prop} {s : σ} {as : List α} (hP : M.Before P s as)
    (hQ : M.Before Q s as) : M.Before (fun s a => P s a ∧ Q s a) s as := by
  induction as generalizing s with
  | nil => trivial
  | cons a as ih => exact ⟨⟨hP.1, hQ.1⟩, fun s' hs => ih (hP.2 s' hs) (hQ.2 s' hs)⟩

end Machine

end BadIo
