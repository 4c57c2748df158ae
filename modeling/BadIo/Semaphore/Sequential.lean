import Mathlib.Tactic.Linarith
import BadIo.Semaphore.Basic

namespace BadIo.Semaphore

/-- The order in which the waiter queue hands out its completions. -/
structure Order (F : Type*) where
  pick : List F → Option F
  mem : ∀ q f, pick q = some f → f ∈ q
  empty : ∀ q, pick q = none → q = []

/-- One producer's completions come out in the order of their arrival. -/
def Order.fifo {F : Type*} : Order F where
  pick := List.head?
  mem _ _ h := List.mem_of_mem_head? h
  empty _ h := List.head?_eq_none_iff.mp h

inductive Call (F : Type*) where
  | asyncAcquire (f : F)
  | tryAcquire
  | release (update : ℤ)
  deriving DecidableEq

variable {F : Type*}

def asyncAcquire (f : F) (g : Shared F) : Shared F :=
  let value := g.count - 1
  if 0 ≤ value then
    { g with count := value, posted := g.posted ++ [some f] }
  else
    { g with count := value, functions := g.functions ++ [f] }

/-- Undisturbed, the loop of `try_acquire` ends in its first turn. -/
def tryAcquire (g : Shared F) : Shared F :=
  if g.count ≤ 0 then g else { g with count := g.count - 1, acquired := g.acquired + 1 }

section Calls

variable [DecidableEq F]

def drain (order : Order F) (ndebug : Bool) : ℕ → Shared F → Shared F
  | 0, g => g
  | n + 1, g =>
    match order.pick g.functions with
    | some f =>
      drain order ndebug n
        { g with functions := g.functions.erase f, posted := g.posted ++ [some f] }
    | none =>
      if ndebug then drain order ndebug n { g with posted := g.posted ++ [none] }
      else { g with aborted := true }

def release (order : Order F) (ndebug : Bool) (update : ℤ) (g : Shared F) : Shared F :=
  let old := g.count
  let g := { g with count := old + update, updates := g.updates + update }
  if 0 < old + update then drain order ndebug (-old).toNat g else g

def call (order : Order F) (ndebug : Bool) (g : Shared F) : Call F → Shared F
  | .asyncAcquire f => asyncAcquire f g
  | .tryAcquire => tryAcquire g
  | .release update => release order ndebug update g

def sequential (order : Order F) (ndebug : Bool) : Machine (Shared F) (Call F) where
  step g c := if g.aborted then none else some (call order ndebug g c)

end Calls

section Interleaved

variable {ι : Type*} [DecidableEq ι]

def alone (i : ι) (g : Shared F) (l : Local F) : Config ι (Shared F) (Local F) :=
  ⟨g, Function.update (fun _ => .idle) i l⟩

theorem alone_idle (i : ι) (g : Shared F) : alone i g .idle = ⟨g, fun _ => .idle⟩ := by
  simp [alone]

variable [DecidableEq F]

theorem reachable_alone {ndebug : Bool} {i : ι} {g g' : Shared F} {l l' : Local F} {a : Act F}
    (hg : g.aborted = false) (h : Trans ndebug g l a g' l') :
    (machine ι F ndebug).Reachable (alone i g l) (alone i g' l') := by
  apply Machine.Reachable.single (a := (i, a))
  rw [interleave_step]
  exact ⟨g', l', by simpa [alone] using trans_step hg h, by simp [alone]⟩

theorem drain_reachable (order : Order F) (ndebug : Bool) (i : ι) (old : ℤ) (n : ℕ) (k : ℤ)
    (hk : k + n = -old) (g : Shared F) (hg : g.aborted = false) :
    (machine ι F ndebug).Reachable (alone i g (releaseLoop k old))
      (alone i (drain order ndebug n g) .idle) := by
  induction n generalizing k g with
  | zero =>
    have hend : (releaseLoop k old : Local F) = .idle := if_neg (by omega)
    rw [hend]
    exact .refl _ _
  | succ n ih =>
    have hturn : (releaseLoop k old : Local F) = .draining k old := if_pos (by omega)
    rw [hturn]
    unfold drain
    cases hp : order.pick g.functions with
    | some f =>
      -- a turn of the loop is a dequeue and a post
      apply (reachable_alone hg (.dequeue k old f (order.mem _ _ hp))).trans
      apply (reachable_alone (by exact hg) (.hand _ k old)).trans
      exact ih (k + 1) (by omega) _ hg
    | none =>
      cases ndebug with
      | true =>
        apply (reachable_alone hg (.miss k old rfl)).trans
        apply (reachable_alone hg (.hand _ k old)).trans
        exact ih (k + 1) (by omega) _ hg
      | false => exact reachable_alone hg (.abort k old rfl)

theorem release_reachable (order : Order F) (ndebug : Bool) (i : ι) (u : ℤ) (g : Shared F)
    (hg : g.aborted = false) :
    (machine ι F ndebug).Reachable (alone i g .idle)
      (alone i (release order ndebug u g) .idle) := by
  unfold release
  dsimp only
  split
  · apply (reachable_alone hg (.release u ‹_›)).trans
    by_cases hneg : g.count ≤ 0
    · exact drain_reachable order ndebug i g.count _ 0 (by omega) _ hg
    · have hend : (releaseLoop 0 g.count : Local F) = .idle := if_neg (by omega)
      have hzero : (-g.count).toNat = 0 := by omega
      rw [hend, hzero]
      exact .refl _ _
  · exact reachable_alone hg (.raise u (by omega))

/-- Every call is a run of the interleaved semaphore in which no other thread moves. -/
theorem call_reachable (order : Order F) (ndebug : Bool) (i : ι) (c : Call F) (g : Shared F)
    (hg : g.aborted = false) :
    (machine ι F ndebug).Reachable ⟨g, fun _ => .idle⟩
      ⟨call order ndebug g c, fun _ => .idle⟩ := by
  rw [← alone_idle i g, ← alone_idle i]
  cases c with
  | asyncAcquire f =>
    simp only [call, asyncAcquire]
    split
    · apply (reachable_alone hg (.acquire f ‹_›)).trans
      exact reachable_alone (by exact hg) (.post f)
    · apply (reachable_alone hg (.wait f (by omega))).trans
      exact reachable_alone (by exact hg) (.enqueue f)
  | tryAcquire =>
    have hload : (machine ι F ndebug).Reachable (alone i g .idle) (alone i g (tryLoop g.count)) :=
      reachable_alone hg .load
    simp only [call, tryAcquire]
    split
    · have hend : (tryLoop g.count : Local F) = .idle := if_pos ‹_›
      rwa [hend] at hload
    · have hcas : (tryLoop g.count : Local F) = .comparing g.count := if_neg ‹_›
      rw [hcas] at hload
      exact hload.trans (reachable_alone hg .exchange)
  | release u => exact release_reachable order ndebug i u g hg

end Interleaved

/-- No waiter is left behind by the call `c` that leads from `g` to `g'`. -/
structure NoneStranded (desired : ℤ) (g : Shared F) (c : Call F) (g' : Shared F) : Prop where
  handedOut : g'.functions ≠ [] → (g'.grants : ℤ) = desired + g'.updates
  waiters : (g'.functions.length : ℤ) = max 0 (-g'.count)
  posts : ∀ u, c = .release u → (g'.granted.length : ℤ) = g.granted.length + min u g.functions.length

/-- A release that finds waiters lifts the counter above zero. -/
def Lifts (g : Shared F) (c : Call F) (_ : Shared F) : Prop :=
  ∀ u, c = .release u → 0 ≤ g.count ∨ 0 < g.count + u

/-- The accounts of a semaphore on which every release has lifted the counter. -/
structure Settled (desired : ℤ) (g : Shared F) : Prop where
  permits : desired + g.updates - g.count = g.grants + g.functions.length
  waiters : (g.functions.length : ℤ) = max 0 (-g.count)

theorem new_settled {desired : ℤ} (hd : 0 ≤ desired) :
    Settled desired (Shared.new desired : Shared F) where
  permits := by simp [Shared.new, Shared.grants, Shared.granted]
  waiters := by simp [Shared.new, hd]

variable [DecidableEq F]

theorem drain_spec (order : Order F) (ndebug : Bool) (n : ℕ) (g : Shared F)
    (hn : n ≤ g.functions.length) :
    let g' := drain order ndebug n g
    g'.functions.length + n = g.functions.length ∧ g'.granted.length = g.granted.length + n ∧
      g'.count = g.count ∧ g'.updates = g.updates ∧ g'.acquired = g.acquired := by
  -- while there are waiters enough, the loop posts one in each turn
  induction n generalizing g with
  | zero => simp [drain]
  | succ n ih =>
    unfold drain
    cases hp : order.pick g.functions with
    | none => simp [order.empty _ hp] at hn
    | some f =>
      have hlen := List.length_erase_add_one (order.mem _ _ hp)
      obtain ⟨hf, hg, hc, hu, ha⟩ :=
        ih { g with functions := g.functions.erase f, posted := g.posted ++ [some f] }
          (by simp only; omega)
      refine ⟨by simp only at hf ⊢; omega, ?_, hc, hu, ha⟩
      rw [hg]
      simp [Shared.granted]
      omega

theorem release_settled (order : Order F) (ndebug : Bool) {desired u : ℤ} {g : Shared F}
    (hg : Settled desired g) (hl : 0 ≤ g.count ∨ 0 < g.count + u) (hu : 1 ≤ u) :
    Settled desired (release order ndebug u g) ∧
      ((release order ndebug u g).granted.length : ℤ) =
        g.granted.length + min u g.functions.length := by
  have hw := hg.waiters
  have hp := hg.permits
  have hup : 0 < g.count + u := by omega
  let g' := { g with count := g.count + u, updates := g.updates + u }
  have hr : release order ndebug u g = drain order ndebug (-g.count).toNat g' := if_pos hup
  obtain ⟨hf, hgr, hc, hup', ha⟩ := drain_spec order ndebug (-g.count).toNat g' (by
    simp only [g']; omega)
  rw [← hr] at hf hgr hc hup' ha
  simp only [g', Shared.granted, Shared.grants] at *
  refine ⟨⟨?_, ?_⟩, ?_⟩
  · simp only [Shared.granted, Shared.grants]; omega
  · omega
  · omega

theorem sequential_step {order : Order F} {ndebug : Bool} {g g' : Shared F} {c : Call F} :
    (sequential order ndebug).step g c = some g' ↔
      g.aborted = false ∧ call order ndebug g c = g' := by
  simp [sequential]

theorem call_settled (order : Order F) (ndebug : Bool) {desired : ℤ} {g : Shared F} {c : Call F}
    (hg : Settled desired g) (hu : ∀ u, c = .release u → 1 ≤ u)
    (hl : Lifts g c (call order ndebug g c)) : Settled desired (call order ndebug g c) := by
  have hw := hg.waiters
  have hp := hg.permits
  cases c with
  | asyncAcquire f =>
    simp only [call, asyncAcquire]
    split <;> refine ⟨?_, ?_⟩ <;> simp [Shared.grants, Shared.granted] at * <;> omega
  | tryAcquire =>
    simp only [call, tryAcquire]
    split
    · exact hg
    · refine ⟨?_, ?_⟩ <;> simp [Shared.grants, Shared.granted] at * <;> omega
  | release u => exact (release_settled order ndebug hg (hl u rfl) (hu u rfl)).1

omit [DecidableEq F] in
theorem Settled.handedOut {desired : ℤ} {g : Shared F} (hg : Settled desired g)
    (hf : g.functions ≠ []) : (g.grants : ℤ) = desired + g.updates := by
  have hpos := List.length_pos_of_ne_nil hf
  have hw := hg.waiters
  have hp := hg.permits
  omega

theorem noneStranded_iff (order : Order F) (ndebug : Bool) {desired : ℤ} {g : Shared F}
    {c : Call F} (hg : Settled desired g) (hu : ∀ u, c = .release u → 1 ≤ u) :
    NoneStranded desired g c (call order ndebug g c) ↔ Lifts g c (call order ndebug g c) := by
  -- a release that leaves the counter at or below zero strands the waiters it finds
  constructor
  · intro hn u hc
    by_contra! hlow
    subst hc
    -- the counter has come closer to zero, and nobody has been posted
    have hu1 := hu u rfl
    have hw := hn.waiters
    have hr : call order ndebug g (.release u) =
        { g with count := g.count + u, updates := g.updates + u } := if_neg (by omega)
    rw [hr] at hw
    have hw' := hg.waiters
    simp only at hw
    omega
  · intro hl
    have hs := call_settled order ndebug hg hu hl
    refine ⟨hs.handedOut, hs.waiters, ?_⟩
    rintro u rfl
    exact (release_settled order ndebug hg (hl u rfl) (hu u rfl)).2

/-- No waiter is stranded in a run of calls exactly if each release that finds waiters
lifts the counter above zero. -/
theorem none_stranded_iff_lifts (order : Order F) (ndebug : Bool) {desired : ℤ} (hd : 0 ≤ desired)
    {calls : List (Call F)} (hu : ∀ u, .release u ∈ calls → 1 ≤ u) :
    (sequential order ndebug).Along (NoneStranded desired) (Shared.new desired) calls ↔
      (sequential order ndebug).Along Lifts (Shared.new desired) calls := by
  apply Machine.along_iff_along (I := Settled desired)
    (A := fun _ c _ => ∀ u, c = .release u → 1 ≤ u)
  · rintro g c g' hg hc hs
    obtain ⟨-, rfl⟩ := sequential_step.mp hs
    exact noneStranded_iff order ndebug hg hc
  · rintro g c g' hg hc hl hs
    obtain ⟨-, rfl⟩ := sequential_step.mp hs
    exact call_settled order ndebug hg hc hl
  · exact new_settled hd
  · exact Machine.along_of_forall fun c hc u huc => hu u (huc ▸ hc)

theorem none_stranded_iff_lifts_handOver :
    (sequential (.fifo : Order ℕ) true).Along (NoneStranded 0) (Shared.new 0)
        [.asyncAcquire 7, .release 2] ↔
      (sequential (.fifo : Order ℕ) true).Along Lifts (Shared.new 0)
        [.asyncAcquire 7, .release 2] := by
  apply none_stranded_iff_lifts .fifo true le_rfl
  intro u hu
  simp at hu
  omega

/-- One waiter and two released permits: the counter stands at 1, and the waiter waits. -/
theorem released_waiter_stranded :
    ¬ (sequential (.fifo : Order ℕ) true).Along (NoneStranded 0) (Shared.new 0)
      [.asyncAcquire 7, .release 1, .release 1] := by
  intro h
  obtain ⟨-, h⟩ := h _ rfl
  obtain ⟨-, h⟩ := h _ rfl
  obtain ⟨h, -⟩ := h _ rfl
  have hgrants := h.handedOut (by decide)
  exact absurd hgrants (by decide)

end BadIo.Semaphore
