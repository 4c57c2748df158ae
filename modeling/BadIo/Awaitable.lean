import Mathlib.Data.List.Nodup
import BadIo.Holders
import BadIo.Machine

namespace BadIo.Awaitable

variable {ι ε ρ : Type*}

inductive Slot (ε ρ : Type*) where
  | noState
  | value (v : ρ)
  | exception (e : ε)
  | retrieved
  deriving DecidableEq

inductive GetResult (ε ρ : Type*) where
  | brokenPromise
  | noState
  | returned (v : ρ)
  | rethrown (e : ε)
  | alreadyRetrieved
  deriving DecidableEq

/-- Frames are numbered in the order of their creation, and `promise` is defined for those
that have not been destroyed.  The last three members record what has happened. -/
structure State (ι ε ρ : Type*) where
  alive : ι → Bool
  handle : ι → Option ℕ
  promise : ℕ → Option (Slot ε ρ)
  next : ℕ
  posted : List (Option ℕ)
  completed : ℕ → Option (Except ε ρ)
  delivered : List (ℕ × Except ε ρ)
  outcomes : List (ι × GetResult ε ρ)

/-- `start` is the call of a coroutine, `complete` its last resumption. -/
inductive Act (ι ε ρ : Type*) where
  | construct (i : ι)
  | start (i : ι)
  | complete (f : ℕ) (result : Except ε ρ)
  | get (i : ι)
  | moveConstruct (i j : ι)
  | moveAssign (i j : ι)
  | postInto (i : ι)
  | destroy (i : ι)

namespace State

def deliver (s : State ι ε ρ) (i : ι) (f : ℕ) (result : Except ε ρ) (outcome : GetResult ε ρ) :
    State ι ε ρ :=
  { s with
    promise := Function.update s.promise f none
    delivered := (f, result) :: s.delivered
    outcomes := (i, outcome) :: s.outcomes }

/-- The frame is destroyed with the promise in it, while the object keeps the handle; `none` is
undefined behaviour: a destroyed frame is accessed. -/
def get (s : State ι ε ρ) (i : ι) : Option (State ι ε ρ) :=
  match s.handle i with
  | none => some { s with outcomes := (i, .brokenPromise) :: s.outcomes }
  | some f => match s.promise f with
    | none => none
    | some .noState => some { s with outcomes := (i, .noState) :: s.outcomes }
    | some (.value v) => some (s.deliver i f (.ok v) (.returned v))
    | some (.exception e) => some (s.deliver i f (.error e) (.rethrown e))
    | some .retrieved => some { s with outcomes := (i, .alreadyRetrieved) :: s.outcomes }

variable [DecidableEq ι]

def start (s : State ι ε ρ) (i : ι) : State ι ε ρ :=
  { s with
    alive := Function.update s.alive i true
    handle := give s.handle i s.next
    promise := Function.update s.promise s.next (some .noState)
    next := s.next + 1 }

def postInto (s : State ι ε ρ) (i : ι) : State ι ε ρ :=
  { s with handle := drop s.handle i, posted := s.handle i :: s.posted }

def destroy (s : State ι ε ρ) (i : ι) : Option (State ι ε ρ) :=
  let s' := { s with alive := Function.update s.alive i false, handle := drop s.handle i }
  match s.handle i with
  | none => some s'
  | some f => match s.promise f with
    | none => none
    | some _ => some { s' with promise := Function.update s.promise f none }

end State

def Slot.ofResult : Option (Except ε ρ) → Slot ε ρ
  | none => .noState
  | some (.ok v) => .value v
  | some (.error e) => .exception e

section

variable [DecidableEq ι]

def step (s : State ι ε ρ) : Act ι ε ρ → Option (Option (State ι ε ρ))
  | .construct i =>
    if s.alive i = true then none
    else some (some { s with
      alive := Function.update s.alive i true
      handle := drop s.handle i })
  | .start i => if s.alive i = true then none else some (some (s.start i))
  | .complete f result => match s.promise f with
    | some .noState => some (some { s with
      promise := Function.update s.promise f (some (.ofResult (some result)))
      completed := Function.update s.completed f (some result) })
    | _ => none
  | .get i => if s.alive i = true then some (s.get i) else none
  | .moveConstruct i j =>
    if s.alive i = false ∧ s.alive j = true then
      some (some { s with
        alive := Function.update s.alive i true
        handle := transfer s.handle i j })
    else none
  | .moveAssign i j =>
    if s.alive i = true ∧ s.alive j = true then
      some (some { s with handle := transfer s.handle i j })
    else none
  | .postInto i => if s.alive i = true then some (some (s.postInto i)) else none
  | .destroy i => if s.alive i = true then some (s.destroy i) else none

/-- After undefined behaviour, the state `none`, there are no further steps. -/
def machine (ι ε ρ : Type*) [DecidableEq ι] :
    Machine (Option (State ι ε ρ)) (Act ι ε ρ) where
  step
    | none, _ => none
    | some s, a => step s a

end

def init : State ι ε ρ :=
  ⟨fun _ => false, fun _ => none, fun _ => none, 0, [], fun _ => none, [], []⟩

def State.Delivered (s : State ι ε ρ) (f : ℕ) : Prop := ∃ result, (f, result) ∈ s.delivered

/-- No result is delivered twice, the executor is handed living frames only, and a frame
that it was not handed lives only while some object has its handle. -/
structure Linear (s : State ι ε ρ) : Prop where
  once : (s.delivered.map Prod.fst).Nodup
  right : ∀ f result, (f, result) ∈ s.delivered → s.completed f = some result
  posted : ∀ f, some f ∈ s.posted → s.promise f ≠ none
  held : ∀ f, s.promise f ≠ none → some f ∉ s.posted → Held s.handle f

inductive Expected (s : State ι ε ρ) (i : ι) : GetResult ε ρ → Prop where
  | brokenPromise (h : s.handle i = none) : Expected s i .brokenPromise
  | noState (f : ℕ) (h : s.handle i = some f) (hc : s.completed f = none) : Expected s i .noState
  | returned (f : ℕ) (v : ρ) (h : s.handle i = some f) (hc : s.completed f = some (.ok v))
      (hd : ¬ s.Delivered f) : Expected s i (.returned v)
  | rethrown (f : ℕ) (e : ε) (h : s.handle i = some f) (hc : s.completed f = some (.error e))
      (hd : ¬ s.Delivered f) : Expected s i (.rethrown e)
  | alreadyRetrieved (f : ℕ) (h : s.handle i = some f) (hd : s.Delivered f) :
      Expected s i .alreadyRetrieved

def Right (s : State ι ε ρ) (a : Act ι ε ρ) : Option (State ι ε ρ) → Prop
  | none => False
  | some t => Linear t ∧
      ∀ i, a = .get i → ∃ outcome, t.outcomes.head? = some (i, outcome) ∧ Expected s i outcome

def Unretrieved (s : State ι ε ρ) (i : ι) : Prop := ∀ f, s.handle i = some f → ¬ s.Delivered f

/-- A handle that the result was retrieved through is not used again other than to be
moved or overwritten, and no other handle is overwritten. -/
def Careful (s : State ι ε ρ) : Act ι ε ρ → Prop
  | .get i | .postInto i | .destroy i => Unretrieved s i
  | .moveAssign i j => i ≠ j → ∀ f, s.handle i = some f → s.Delivered f
  | _ => True

structure Inv (s : State ι ε ρ) : Prop where
  linear : Linear s
  exclusive : Exclusive s.handle
  dead : ∀ i, s.alive i = false → s.handle i = none
  next : ∀ f, Held s.handle f → f < s.next
  living : ∀ f, s.promise f ≠ none → f < s.next
  slot : ∀ f slot, s.promise f = some slot → slot = .ofResult (s.completed f) ∧ ¬ s.Delivered f
  delivered : ∀ f, Held s.handle f → s.promise f = none → s.Delivered f
  handed : ∀ f, some f ∈ s.posted → ¬ Held s.handle f
  unused : ∀ f, s.next ≤ f → s.completed f = none ∧ ¬ s.Delivered f

variable {s t : State ι ε ρ} {i j : ι} {f : ℕ}

theorem Inv.living_of_unretrieved (h : Inv s) (hi : s.handle i = some f)
    (hu : Unretrieved s i) : ∃ slot, s.promise f = some slot := by
  apply Option.ne_none_iff_exists'.mp
  exact fun hp => hu f hi (h.delivered f ⟨i, hi⟩ hp)

theorem Inv.destroyed_of_delivered (h : Inv s) (hd : s.Delivered f) : s.promise f = none := by
  by_contra hp
  obtain ⟨slot, hslot⟩ := Option.ne_none_iff_exists'.mp hp
  exact (h.slot f slot hslot).2 hd

theorem Inv.of_handles (h : Inv s) (hpromise : t.promise = s.promise) (hnext : t.next = s.next)
    (hcompleted : t.completed = s.completed) (hdelivered : t.delivered = s.delivered)
    (hx : Exclusive t.handle) (hdead : ∀ k, t.alive k = false → t.handle k = none)
    (hsub : ∀ g, Held t.handle g → Held s.handle g)
    (hposted : ∀ g, some g ∈ t.posted → s.promise g ≠ none ∧ ¬ Held t.handle g)
    (hheld : ∀ g, s.promise g ≠ none → some g ∉ t.posted → Held t.handle g) : Inv t := by
  have hD : ∀ g, t.Delivered g ↔ s.Delivered g := by
    intro g
    unfold State.Delivered
    rw [hdelivered]
  refine ⟨⟨?_, ?_, ?_, ?_⟩, hx, hdead, ?_, ?_, ?_, ?_, fun g hg => (hposted g hg).2, ?_⟩
  · rw [hdelivered]
    exact h.linear.once
  · rw [hdelivered, hcompleted]
    exact h.linear.right
  · rw [hpromise]
    exact fun g hg => (hposted g hg).1
  · rw [hpromise]
    exact hheld
  · rw [hnext]
    exact fun g hg => h.next g (hsub g hg)
  · rw [hpromise, hnext]
    exact h.living
  · rw [hpromise, hcompleted]
    intro g slot hg
    rw [hD]
    exact h.slot g slot hg
  · rw [hpromise]
    intro g hg hp
    rw [hD]
    exact h.delivered g (hsub g hg) hp
  · rw [hnext, hcompleted]
    intro g hg
    rw [hD]
    exact h.unused g hg

theorem Inv.reported (h : Inv s) (outcome : ι × GetResult ε ρ) :
    Inv { s with outcomes := outcome :: s.outcomes } :=
  h.of_handles rfl rfl rfl rfl h.exclusive h.dead (fun _ hg => hg)
    (fun g hg => ⟨h.linear.posted g hg, h.handed g hg⟩) h.linear.held

theorem Inv.of_destroyed (h : Inv s) (hf : Held s.handle f)
    (hpromise : t.promise = Function.update s.promise f none) (hnext : t.next = s.next)
    (hposted : t.posted = s.posted) (hcompleted : t.completed = s.completed)
    (honce : (t.delivered.map Prod.fst).Nodup)
    (hright : ∀ g result, (g, result) ∈ t.delivered → s.completed g = some result)
    (hD : ∀ g, g ≠ f → (t.Delivered g ↔ s.Delivered g))
    (hx : Exclusive t.handle) (hdead : ∀ k, t.alive k = false → t.handle k = none)
    (hheld : ∀ g, g ≠ f → (Held t.handle g ↔ Held s.handle g))
    (hdelivered : Held t.handle f → t.Delivered f) : Inv t := by
  have hlive : ∀ g, g ≠ f → t.promise g = s.promise g := by
    intro g hg
    rw [hpromise, Function.update_of_ne hg]
  have hne : ∀ g, t.promise g ≠ none → g ≠ f := by
    rintro g hg rfl
    rw [hpromise, Function.update_self] at hg
    exact hg rfl
  have hnot : some f ∉ s.posted := fun hm => h.handed f hm hf
  refine ⟨⟨honce, hcompleted ▸ hright, ?_, ?_⟩, hx, hdead, ?_, ?_, ?_, ?_, ?_, ?_⟩
  · intro g hg
    rw [hposted] at hg
    have hgf : g ≠ f := by
      rintro rfl
      exact hnot hg
    rw [hlive g hgf]
    exact h.linear.posted g hg
  · intro g hg hn
    have hgf := hne g hg
    rw [hlive g hgf] at hg
    rw [hposted] at hn
    exact (hheld g hgf).mpr (h.linear.held g hg hn)
  · intro g hg
    rw [hnext]
    by_cases hgf : g = f
    · exact hgf ▸ h.next f hf
    · exact h.next g ((hheld g hgf).mp hg)
  · intro g hg
    rw [hlive g (hne g hg)] at hg
    rw [hnext]
    exact h.living g hg
  · intro g slot hg
    have hgf := hne g (by rw [hg]; nofun)
    rw [hlive g hgf] at hg
    rw [hcompleted, hD g hgf]
    exact h.slot g slot hg
  · intro g hg hn
    by_cases hgf : g = f
    · subst hgf
      exact hdelivered hg
    · rw [hlive g hgf] at hn
      exact (hD g hgf).mpr (h.delivered g ((hheld g hgf).mp hg) hn)
  · intro g hg hn
    rw [hposted] at hg
    by_cases hgf : g = f
    · exact hnot (hgf ▸ hg)
    · exact h.handed g hg ((hheld g hgf).mp hn)
  · intro g hg
    rw [hnext] at hg
    have hgf : g ≠ f := by
      rintro rfl
      exact absurd (h.next g hf) (Nat.not_lt.mpr hg)
    rw [hcompleted, hD g hgf]
    exact h.unused g hg

theorem Inv.delivers (h : Inv s) (hi : s.handle i = some f) {result : Except ε ρ}
    (hcompleted : s.completed f = some result) (hnew : ¬ s.Delivered f)
    (outcome : GetResult ε ρ) : Inv (s.deliver i f result outcome) := by
  refine h.of_destroyed ⟨i, hi⟩ rfl rfl rfl rfl ?_ ?_ ?_ h.exclusive h.dead (fun _ _ => Iff.rfl)
    (fun _ => ⟨result, List.mem_cons_self⟩)
  · refine List.nodup_cons.mpr ⟨fun hm => ?_, h.linear.once⟩
    obtain ⟨⟨g, r⟩, hr, rfl⟩ := List.mem_map.mp hm
    exact hnew ⟨r, hr⟩
  · intro g r hr
    rcases List.mem_cons.mp hr with heq | hr'
    · cases heq
      exact hcompleted
    · exact h.linear.right g r hr'
  · intro g hgf
    constructor
    · rintro ⟨r, hr⟩
      rcases List.mem_cons.mp hr with heq | hr'
      · exact absurd (congrArg Prod.fst heq) hgf
      · exact ⟨r, hr'⟩
    · rintro ⟨r, hr⟩
      exact ⟨r, List.mem_cons_of_mem _ hr⟩

theorem completed_of_slot {slot : Slot ε ρ} {completed : Option (Except ε ρ)}
    (h : slot = .ofResult completed) :
    (slot = .noState ∧ completed = none) ∨ (∃ v, slot = .value v ∧ completed = some (.ok v)) ∨
      ∃ e, slot = .exception e ∧ completed = some (.error e) := by
  subst h
  match completed with
  | none => exact .inl ⟨rfl, rfl⟩
  | some (.ok v) => exact .inr (.inl ⟨v, rfl, rfl⟩)
  | some (.error e) => exact .inr (.inr ⟨e, rfl, rfl⟩)

theorem Inv.get (h : Inv s) (hu : Unretrieved s i) :
    ∃ t, s.get i = some t ∧ Inv t ∧
      ∃ outcome, t.outcomes.head? = some (i, outcome) ∧ Expected s i outcome := by
  unfold State.get
  cases hi : s.handle i with
  | none => exact ⟨_, rfl, h.reported _, _, rfl, .brokenPromise hi⟩
  | some f =>
    obtain ⟨slot, hp⟩ := h.living_of_unretrieved hi hu
    obtain ⟨hslot, hnew⟩ := h.slot f slot hp
    rcases completed_of_slot hslot with ⟨rfl, hc⟩ | ⟨v, rfl, hc⟩ | ⟨e, rfl, hc⟩
    · simp only [hp]
      exact ⟨_, rfl, h.reported _, _, rfl, .noState f hi hc⟩
    · have hdel := h.delivers hi hc hnew (.returned v)
      simp only [hp]
      exact ⟨_, rfl, hdel, _, rfl, .returned f v hi hc hnew⟩
    · have hdel := h.delivers hi hc hnew (.rethrown e)
      simp only [hp]
      exact ⟨_, rfl, hdel, _, rfl, .rethrown f e hi hc hnew⟩

theorem Inv.completes (h : Inv s) (hp : s.promise f = some .noState) (result : Except ε ρ) :
    Inv { s with
      promise := Function.update s.promise f (some (.ofResult (some result)))
      completed := Function.update s.completed f (some result) } := by
  have hnew := (h.slot f _ hp).2
  have hf : f < s.next := h.living f (by rw [hp]; nofun)
  have hlive : ∀ g, Function.update s.promise f (some (.ofResult (some result))) g ≠ none →
      s.promise g ≠ none := by
    intro g hg
    by_cases hgf : g = f
    · rw [hgf, hp]
      nofun
    · simpa [hgf] using hg
  refine ⟨⟨h.linear.once, ?_, ?_, ?_⟩, h.exclusive, h.dead, h.next, ?_, ?_, ?_, h.handed, ?_⟩
  · intro g r hr
    have hgf : g ≠ f := by
      rintro rfl
      exact hnew ⟨r, hr⟩
    simpa [hgf] using h.linear.right g r hr
  · intro g hg
    by_cases hgf : g = f
    · simp [hgf]
    · simpa [hgf] using h.linear.posted g hg
  · exact fun g hg => h.linear.held g (hlive g hg)
  · exact fun g hg => h.living g (hlive g hg)
  · intro g slot hg
    by_cases hgf : g = f
    · subst hgf
      simp only [Function.update_self, Option.some.injEq] at hg ⊢
      exact ⟨hg.symm, hnew⟩
    · simp only [Function.update_of_ne hgf] at hg ⊢
      exact h.slot g slot hg
  · intro g hg hn
    by_cases hgf : g = f
    · simp [hgf] at hn
    · exact h.delivered g hg (by simpa [hgf] using hn)
  · intro g hg
    have hgf : g ≠ f := by
      rintro rfl
      exact absurd hf (Nat.not_lt.mpr hg)
    refine ⟨?_, (h.unused g hg).2⟩
    simpa [hgf] using (h.unused g hg).1

section Handles

variable [DecidableEq ι]

theorem Inv.starts (h : Inv s) (hi : s.alive i = false) : Inv (s.start i) := by
  have hnone := h.dead i hi
  have hnext : ¬ Held s.handle s.next := fun hn => Nat.lt_irrefl _ (h.next _ hn)
  have hheld : ∀ g, Held (s.start i).handle g ↔ g = s.next ∨ Held s.handle g :=
    fun g => held_give hnone
  have hposted : ∀ g, some g ∈ s.posted → g ≠ s.next := by
    rintro g hg rfl
    exact absurd (h.living _ (h.linear.posted _ hg)) (Nat.lt_irrefl _)
  have hlive : ∀ g, g ≠ s.next → (s.start i).promise g = s.promise g := by
    intro g hg
    exact Function.update_of_ne hg _ _
  refine ⟨⟨h.linear.once, h.linear.right, ?_, ?_⟩, h.exclusive.give hnext, ?_, ?_, ?_, ?_, ?_, ?_,
    fun g hg => h.unused g (Nat.le_of_succ_le hg)⟩
  · intro g hg
    rw [hlive g (hposted g hg)]
    exact h.linear.posted g hg
  · intro g hg hn
    rw [hheld]
    by_cases hgn : g = s.next
    · exact .inl hgn
    · rw [hlive g hgn] at hg
      exact .inr (h.linear.held g hg hn)
  · intro k hk
    have hki : k ≠ i := by
      rintro rfl
      simp [State.start] at hk
    have hk' : s.alive k = false := by simpa [State.start, hki] using hk
    simpa [State.start, give, hki] using h.dead k hk'
  · intro g hg
    rcases (hheld g).mp hg with rfl | hg'
    · exact Nat.lt_succ_self _
    · exact Nat.lt_succ_of_lt (h.next g hg')
  · intro g hg
    by_cases hgn : g = s.next
    · exact hgn ▸ Nat.lt_succ_self _
    · rw [hlive g hgn] at hg
      exact Nat.lt_succ_of_lt (h.living g hg)
  · intro g slot hg
    by_cases hgn : g = s.next
    · subst hgn
      obtain ⟨hc, hd⟩ := h.unused s.next (Nat.le_refl _)
      have hslot : slot = .noState := by
        simpa [State.start] using hg.symm
      refine ⟨?_, hd⟩
      change slot = .ofResult (s.completed s.next)
      rw [hslot, hc]
      rfl
    · rw [hlive g hgn] at hg
      exact h.slot g slot hg
  · intro g hg hp
    have hgn : g ≠ s.next := by
      rintro rfl
      simp [State.start] at hp
    rw [hlive g hgn] at hp
    rcases (hheld g).mp hg with rfl | hg'
    · exact absurd rfl hgn
    · exact h.delivered g hg' hp
  · intro g hg hn
    rcases (hheld g).mp hn with rfl | hn'
    · exact hposted _ hg rfl
    · exact h.handed g hg hn'

theorem Inv.constructs (h : Inv s) (hi : s.alive i = false) :
    Inv { s with
      alive := Function.update s.alive i true
      handle := drop s.handle i } := by
  have hdrop : drop s.handle i = s.handle := drop_of_none (h.dead i hi)
  rw [hdrop]
  refine h.of_handles rfl rfl rfl rfl h.exclusive ?_ (fun _ hg => hg)
    (fun g hg => ⟨h.linear.posted g hg, h.handed g hg⟩) h.linear.held
  intro k hk
  by_cases hki : k = i
  · exact hki ▸ h.dead i hi
  · exact h.dead k (by simpa [hki] using hk)

theorem transfer_dead (h : Inv s) (hij : i ≠ j) {k : ι} (hki : k ≠ i) (hk : s.alive k = false) :
    transfer s.handle i j k = none := by
  by_contra hn
  obtain ⟨f, hf⟩ := Option.ne_none_iff_exists'.mp hn
  rcases (transfer_eq_some hij).mp hf with ⟨hk', -⟩ | ⟨-, -, hk'⟩
  · exact hki hk'
  · exact nomatch (h.dead k hk).symm.trans hk'

theorem Inv.moveConstructs (h : Inv s) (hi : s.alive i = false) (hj : s.alive j = true) :
    Inv { s with
      alive := Function.update s.alive i true
      handle := transfer s.handle i j } := by
  have hnone := h.dead i hi
  have hij : i ≠ j := by
    rintro rfl
    exact nomatch hi.symm.trans hj
  have hheld : ∀ g, Held (transfer s.handle i j) g ↔ Held s.handle g :=
    fun g => held_transfer_of_none hij hnone
  refine h.of_handles rfl rfl rfl rfl (h.exclusive.transfer hij) ?_ (fun g => (hheld g).mp)
    (fun g hg => ⟨h.linear.posted g hg, fun hn => h.handed g hg ((hheld g).mp hn)⟩)
    (fun g hg hn => (hheld g).mpr (h.linear.held g hg hn))
  intro k hk
  have hki : k ≠ i := by
    rintro rfl
    simp at hk
  exact transfer_dead h hij hki (by simpa [hki] using hk)

theorem Inv.moveAssigns (h : Inv s) (hi : s.alive i = true)
    (hd : i ≠ j → ∀ f, s.handle i = some f → s.Delivered f) :
    Inv { s with handle := transfer s.handle i j } := by
  by_cases hij : i = j
  · subst hij
    have hsame : transfer s.handle i i = s.handle := by simp [transfer]
    rw [hsame]
    exact h
  have hheld : ∀ g, Held (transfer s.handle i j) g → Held s.handle g := by
    intro g hg
    obtain ⟨k, -, hk⟩ := (held_transfer hij).mp hg
    exact ⟨k, hk⟩
  refine h.of_handles rfl rfl rfl rfl (h.exclusive.transfer hij) ?_ hheld
    (fun g hg => ⟨h.linear.posted g hg, fun hn => h.handed g hg (hheld g hn)⟩) ?_
  · intro k hk
    have hki : k ≠ i := by
      rintro rfl
      exact Bool.false_ne_true (hk.symm.trans hi)
    exact transfer_dead h hij hki hk
  · intro g hg hn
    obtain ⟨k, hk⟩ := h.linear.held g hg hn
    refine (held_transfer hij).mpr ⟨k, ?_, hk⟩
    rintro rfl
    exact hg (h.destroyed_of_delivered (hd hij g hk))

theorem drop_dead (h : Inv s) {k : ι} (hk : s.alive k = false) : drop s.handle i k = none := by
  by_contra hn
  obtain ⟨f, hf⟩ := Option.ne_none_iff_exists'.mp hn
  exact nomatch (h.dead k hk).symm.trans (drop_eq_some.mp hf).2

theorem Inv.posts (h : Inv s) (hu : Unretrieved s i) : Inv (s.postInto i) := by
  have hsub : ∀ g, Held (drop s.handle i) g → Held s.handle g :=
    fun g ⟨k, hk⟩ => ⟨k, (drop_eq_some.mp hk).2⟩
  refine h.of_handles rfl rfl rfl rfl (h.exclusive.drop i) (fun k hk => drop_dead h hk) hsub ?_ ?_
  · intro g hg
    rcases List.mem_cons.mp hg with heq | hg'
    · obtain ⟨slot, hslot⟩ := h.living_of_unretrieved heq.symm hu
      refine ⟨by rw [hslot]; nofun, fun hn => ?_⟩
      exact ((held_drop h.exclusive heq.symm).mp hn).1 rfl
    · exact ⟨h.linear.posted g hg', fun hn => h.handed g hg' (hsub g hn)⟩
  · intro g hg hn
    obtain ⟨hne, hn'⟩ := not_or.mp (fun hm => hn (List.mem_cons.mpr hm))
    obtain ⟨k, hk⟩ := h.linear.held g hg hn'
    refine ⟨k, drop_eq_some.mpr ⟨?_, hk⟩⟩
    rintro rfl
    exact hne hk.symm

theorem destroy_eq (hi : s.handle i = some f) {slot : Slot ε ρ} (hp : s.promise f = some slot) :
    s.destroy i = some
      { s with
        alive := Function.update s.alive i false
        handle := drop s.handle i
        promise := Function.update s.promise f none } := by
  simp only [State.destroy, hi, hp]

theorem Inv.destroys (h : Inv s) (hu : Unretrieved s i) :
    ∃ t, s.destroy i = some t ∧ Inv t := by
  have hdead : ∀ k, Function.update s.alive i false k = false → drop s.handle i k = none := by
    intro k hk
    by_cases hki : k = i
    · rw [hki, drop_self]
    · exact drop_dead h (by simpa [hki] using hk)
  cases hi : s.handle i with
  | none =>
    refine ⟨{ s with
      alive := Function.update s.alive i false
      handle := drop s.handle i }, by simp only [State.destroy, hi], ?_⟩
    have hdrop : drop s.handle i = s.handle := drop_of_none hi
    rw [hdrop] at hdead ⊢
    exact h.of_handles rfl rfl rfl rfl h.exclusive hdead (fun _ hg => hg)
      (fun g hg => ⟨h.linear.posted g hg, h.handed g hg⟩) h.linear.held
  | some f =>
    obtain ⟨slot, hp⟩ := h.living_of_unretrieved hi hu
    have hheld : ∀ g, Held (drop s.handle i) g ↔ g ≠ f ∧ Held s.handle g :=
      fun g => held_drop h.exclusive hi
    refine ⟨_, destroy_eq hi hp, h.of_destroyed ⟨i, hi⟩ rfl rfl rfl rfl h.linear.once
      h.linear.right (fun _ _ => Iff.rfl) (h.exclusive.drop i) hdead ?_ ?_⟩
    · intro g hgf
      rw [hheld]
      exact and_iff_right hgf
    · exact fun hn => absurd rfl ((hheld f).mp hn).1

end Handles

variable [DecidableEq ι] {a : Act ι ε ρ} {o : Option (State ι ε ρ)}

theorem step_careful (h : Inv s) (hc : Careful s a) (hs : step s a = some o) :
    Right s a o ∧ ∃ t, o = some t ∧ Inv t := by
  have hother : ∀ t, (∀ i, a ≠ .get i) → o = some t → Inv t →
      Right s a o ∧ ∃ t, o = some t ∧ Inv t := by
    rintro t hget rfl ht
    exact ⟨⟨ht.linear, fun i hi => absurd hi (hget i)⟩, t, rfl, ht⟩
  cases a with
  | construct i =>
    rw [step] at hs
    split at hs
    · cases hs
    rename_i hi
    cases hs
    exact hother _ nofun rfl (h.constructs (Bool.not_eq_true _ ▸ hi))
  | start i =>
    rw [step] at hs
    split at hs
    · cases hs
    rename_i hi
    cases hs
    exact hother _ nofun rfl (h.starts (Bool.not_eq_true _ ▸ hi))
  | complete f result =>
    rw [step] at hs
    split at hs
    · rename_i hp
      cases hs
      exact hother _ nofun rfl (h.completes hp result)
    · cases hs
  | get i =>
    rw [step] at hs
    split at hs
    · obtain ⟨t, ht, hinv, hout⟩ := h.get hc
      rw [ht] at hs
      cases hs
      refine ⟨⟨hinv.linear, ?_⟩, t, rfl, hinv⟩
      rintro j ⟨⟩
      exact hout
    · cases hs
  | moveConstruct i j =>
    rw [step] at hs
    split at hs
    · rename_i hij
      cases hs
      exact hother _ nofun rfl (h.moveConstructs hij.1 hij.2)
    · cases hs
  | moveAssign i j =>
    rw [step] at hs
    split at hs
    · rename_i hij
      cases hs
      exact hother _ nofun rfl (h.moveAssigns hij.1 hc)
    · cases hs
  | postInto i =>
    rw [step] at hs
    split at hs
    · cases hs
      exact hother _ nofun rfl (h.posts hc)
    · cases hs
  | destroy i =>
    rw [step] at hs
    split at hs
    · obtain ⟨t, ht, hinv⟩ := h.destroys hc
      rw [ht] at hs
      cases hs
      exact hother _ nofun rfl hinv
    · cases hs

theorem careful_of_right (h : Inv s) (hr : Right s a o) (hs : step s a = some o) :
    Careful s a := by
  cases a with
  | get i =>
    intro f hi hd
    have hp := h.destroyed_of_delivered hd
    rw [step] at hs
    split at hs
    · have hget : s.get i = none := by simp only [State.get, hi, hp]
      rw [hget] at hs
      cases hs
      exact hr
    · cases hs
  | destroy i =>
    intro f hi hd
    have hp := h.destroyed_of_delivered hd
    rw [step] at hs
    split at hs
    · have hdestroy : s.destroy i = none := by simp only [State.destroy, hi, hp]
      rw [hdestroy] at hs
      cases hs
      exact hr
    · cases hs
  | postInto i =>
    intro f hi hd
    have hp := h.destroyed_of_delivered hd
    rw [step] at hs
    split at hs
    · cases hs
      exact hr.1.posted f (hi ▸ List.mem_cons_self) hp
    · cases hs
  | moveAssign i j =>
    intro hij f hi
    rw [step] at hs
    split at hs
    · cases hs
      by_contra hd
      have hp : s.promise f ≠ none := fun hp => hd (h.delivered f ⟨i, hi⟩ hp)
      have hn : some f ∉ s.posted := fun hm => h.handed f hm ⟨i, hi⟩
      exact ((held_transfer_of_some h.exclusive hij hi).mp (hr.1.held f hp hn)).1 rfl
    · cases hs
  | _ => trivial

def OptionInv : Option (State ι ε ρ) → Prop
  | none => False
  | some s => Inv s

omit [DecidableEq ι] in
theorem init_inv : Inv (init : State ι ε ρ) :=
  ⟨⟨List.nodup_nil, nofun, nofun, fun _ h => absurd rfl h⟩, exclusive_none, fun _ _ => rfl, nofun,
    fun _ h => absurd rfl h, nofun, nofun, nofun, fun _ _ => ⟨rfl, nofun⟩⟩

/-- Frames are owned linearly throughout a run exactly if every step is careful. -/
theorem linear_iff_careful (as : List (Act ι ε ρ)) :
    (machine ι ε ρ).Along (fun s a o => ∀ s', s = some s' → Right s' a o) (some init) as ↔
      (machine ι ε ρ).Along (fun s a _ => ∀ s', s = some s' → Careful s' a) (some init) as := by
  refine Machine.along_iff_along (I := OptionInv) (A := fun _ _ _ => True) ?_ ?_ init_inv
    (Machine.along_true _ as)
  · intro s a o hI _ hs
    cases s with
    | none => exact hI.elim
    | some s =>
      constructor
      · rintro hr s' ⟨⟩
        exact careful_of_right hI (hr s rfl) hs
      · rintro hc s' ⟨⟩
        exact (step_careful hI (hc s rfl) hs).1
  · intro s a o hI _ hc hs
    cases s with
    | none => exact hI.elim
    | some s =>
      obtain ⟨-, t, rfl, ht⟩ := step_careful hI (hc s rfl) hs
      exact ht

/-- The destructor destroys the frame that `get` has destroyed. -/
theorem retrieved_frame_destroyed_twice :
    (machine ℕ ℕ ℕ).run (some init) [.start 0, .complete 0 (.ok 5), .get 0, .destroy 0] =
        some none ∧
    ¬ (machine ℕ ℕ ℕ).Along (fun s a o => ∀ s', s = some s' → Right s' a o) (some init)
      [.start 0, .complete 0 (.ok 5), .get 0, .destroy 0] :=
  ⟨rfl, fun h => h.nth 3 rfl rfl rfl _ rfl⟩

end BadIo.Awaitable
