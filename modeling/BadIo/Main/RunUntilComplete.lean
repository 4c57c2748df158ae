import BadIo.ExecutionContext.Unsynchronized
import BadIo.Uring.Pending

namespace BadIo.Main.RunUntilComplete

open Uring

/-- What asking a runner leads to; `none` is an exception, which is reported and counts as
work. -/
def keeps : Option ℕ → Bool
  | none => true
  | some pending => pending != 0

/-- A turn of the loop, `keep_running` at the end of it; `ask t` are the runners in turn `t`. -/
def turn (runners : List (Option ℕ)) : Bool := runners.any keeps

/-- The number of turns until the loop is left. -/
def runUntilComplete (ask : ℕ → List (Option ℕ)) : ℕ → Option ℕ
  | 0 => none
  | fuel + 1 =>
    if turn (ask 0) then (runUntilComplete (fun t => ask (t + 1)) fuel).map (· + 1) else some 1

/-- The loop is left after the first turn in which no runner has work. -/
theorem runUntilComplete_eq_some {ask : ℕ → List (Option ℕ)} {fuel turns : ℕ} :
    runUntilComplete ask fuel = some turns ↔ ∃ t, turns = t + 1 ∧ turns ≤ fuel ∧
      turn (ask t) = false ∧ ∀ u < t, turn (ask u) = true := by
  induction fuel generalizing ask turns with
  | zero =>
    refine iff_of_false nofun ?_
    rintro ⟨t, rfl, hle, -⟩
    omega
  | succ fuel ih =>
    rw [runUntilComplete]
    split
    · rename_i hturn
      constructor
      · intro h
        obtain ⟨n, hn, rfl⟩ := Option.map_eq_some_iff.mp h
        obtain ⟨t, rfl, hle, ht, hu⟩ := ih.mp hn
        refine ⟨t + 1, rfl, by omega, ht, ?_⟩
        intro u hlt
        cases u with
        | zero => exact hturn
        | succ u => exact hu u (by omega)
      · rintro ⟨t, rfl, hle, ht, hu⟩
        cases t with
        | zero =>
          rw [hturn] at ht
          cases ht
        | succ t =>
          have hn := ih.mpr ⟨t, rfl, by omega, ht, fun u hlt => hu (u + 1) (by omega)⟩
          rw [hn]
          rfl
    · rename_i hturn
      constructor
      · intro h
        cases h
        exact ⟨0, rfl, by omega, Bool.eq_false_iff.mpr hturn, fun _ hlt => absurd hlt (by omega)⟩
      · rintro ⟨t, rfl, hle, ht, hu⟩
        cases t with
        | zero => rfl
        | succ t => exact absurd (hu 0 (by omega)) hturn

def runners {τ R : Type*} (ctx : UnsynchronizedExecutionContext.State τ)
    (ioService : Uring.Pending.State R) : List (Option ℕ) :=
  [some ctx.functionQueue.length, some ioService.pending]

variable {τ R : Type*}

theorem turn_runners {context : Context} {capacity : ℕ} {acts : List (Uring.Pending.Act R)}
    (ctx : UnsynchronizedExecutionContext.State τ) {ioService : Uring.Pending.State R}
    (h : (Uring.Pending.machine context R).run (.new capacity) acts = some ioService) :
    turn (runners ctx ioService) = true ↔ ctx.functionQueue ≠ [] := by
  rw [runners, Uring.Pending.run_pending h]
  simp [turn, keeps]

/-- Whatever the two services go through meanwhile, the loop is left after the first turn in
which the executor's queue is empty, however many operations the ring has outstanding then;
and without someone else who empties the queue, that is after the first turn or never. -/
theorem run_until_complete_ignores_ring {context : Context} {capacity : ℕ}
    (ctx : ℕ → UnsynchronizedExecutionContext.State τ) (ioService : ℕ → Uring.Pending.State R)
    (h : ∀ t, ∃ acts,
      (Uring.Pending.machine context R).run (.new capacity) acts = some (ioService t)) :
    (∀ fuel turns, runUntilComplete (fun t => runners (ctx t) (ioService t)) fuel = some turns ↔
      ∃ t, turns = t + 1 ∧ turns ≤ fuel ∧ (ctx t).functionQueue = [] ∧
        ∀ u < t, (ctx u).functionQueue ≠ []) ∧
    ((∀ t, ctx t = ctx 0) → ∀ fuel,
      runUntilComplete (fun t => runners (ctx t) (ioService t)) (fuel + 1) =
        if (ctx 0).functionQueue.isEmpty then some 1 else none) := by
  have hturn (t : ℕ) : turn (runners (ctx t) (ioService t)) = true ↔ (ctx t).functionQueue ≠ [] :=
    (h t).elim fun _ hrun => turn_runners (ctx t) hrun
  have hfirst (fuel turns : ℕ) :
      runUntilComplete (fun t => runners (ctx t) (ioService t)) fuel = some turns ↔
        ∃ t, turns = t + 1 ∧ turns ≤ fuel ∧ (ctx t).functionQueue = [] ∧
          ∀ u < t, (ctx u).functionQueue ≠ [] := by
    rw [runUntilComplete_eq_some]
    simp only [hturn, ← Bool.not_eq_true, not_not]
  refine ⟨hfirst, fun hsame fuel => ?_⟩
  split
  · rename_i hempty
    exact (hfirst _ _).mpr ⟨0, rfl, by omega, List.isEmpty_iff.mp hempty,
      fun _ hlt => absurd hlt (by omega)⟩
  · rename_i hne
    apply Option.eq_none_iff_forall_ne_some.mpr
    intro turns hsome
    obtain ⟨t, -, -, ht, -⟩ := (hfirst _ _).mp hsome
    rw [hsame t] at ht
    exact hne (List.isEmpty_iff.mpr ht)

/-- One operation has been started, and the loop is left in its first turn. -/
theorem run_until_complete_ignores_ring_one : ∃ ioService : Uring.Pending.State ℕ,
    ioService.outstanding = [100] ∧
      runUntilComplete (fun _ =>
        runners (.new : UnsynchronizedExecutionContext.State ℕ) ioService) 1 = some 1 := by
  obtain ⟨s, h, hs⟩ : ∃ s,
      (Uring.Pending.machine .unsynchronized ℕ).run (.new 2) [.submit 5 100 false []] = some s ∧
        s.outstanding = [100] := ⟨_, rfl, rfl⟩
  exact ⟨s, hs, (run_until_complete_ignores_ring (fun _ => .new) (fun _ => s)
    fun _ => ⟨_, h⟩).2 (fun _ => rfl) 0⟩

end BadIo.Main.RunUntilComplete
