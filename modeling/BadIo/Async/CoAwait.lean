import Mathlib.Data.List.Range
import BadIo.Async.Ioring
import BadIo.UseAwaitable

namespace BadIo.Async.CoAwait

open Ioring (Operation Task Value)

/-- The handler of an operation: the `using_awaitable_t` of the `i`-th `co_await`, or another
one. -/
inductive Handler (G : Type*) where
  | awaitable (i : ℕ)
  | other (g : G)
  deriving DecidableEq

structure State (G τ C : Type*) where
  loop : Ioring.State (Handler G) τ
  awaitables : UseAwaitable.State ℕ ℤ Value C
  next : ℕ

variable {G τ C : Type*}

def State.new : State G τ C := ⟨.new, UseAwaitable.init, 0⟩

/-- The service hands each operation its CQE, at any moment after the `co_await`, which starts
the operation and awaits it in the same expression. -/
inductive Act (G τ C : Type*) where
  | coAwait (op : Operation) (coroutine : C)
  | loop (a : Ioring.Act (Handler G) τ)
  deriving DecidableEq

def State.invoke (ndebug : Bool) (s : State G τ C) : Option (UseAwaitable.State ℕ ℤ Value C) :=
  match s.loop.executor.functionQueue with
  | .completion (.awaitable i) op result :: _ =>
    UseAwaitable.step ndebug s.awaitables (.handler i (op.report result))
  | _ => some s.awaitables

def step (ndebug : Bool) (s : State G τ C) : Act G τ C → Option (State G τ C)
  | .coAwait op coroutine =>
    (Ioring.step s.loop (.start op (.awaitable s.next))).bind fun loop =>
      (UseAwaitable.step ndebug s.awaitables (.await s.next coroutine)).map fun awaitables =>
        ⟨loop, awaitables, s.next + 1⟩
  | .loop (.start _ (.awaitable _)) => none
  | .loop .iterate =>
    (Ioring.step s.loop .iterate).bind fun loop =>
      (s.invoke ndebug).map fun awaitables => { s with loop, awaitables }
  | .loop a => (Ioring.step s.loop a).map fun loop => { s with loop }

def machine (ndebug : Bool) (G τ C : Type*) : Machine (State G τ C) (Act G τ C) := ⟨step ndebug⟩

inductive Trans (ndebug : Bool) (s : State G τ C) : Act G τ C → State G τ C → Prop where
  | coAwait (op : Operation) (coroutine : C) (loop : Ioring.State (Handler G) τ)
      (awaitables : UseAwaitable.State ℕ ℤ Value C)
      (hl : (Ioring.machine (Handler G) τ).step s.loop (.start op (.awaitable s.next)) = some loop)
      (ha : (UseAwaitable.machine ℕ ℤ Value C ndebug).step s.awaitables
        (.await s.next coroutine) = some awaitables) :
      Trans ndebug s (.coAwait op coroutine) ⟨loop, awaitables, s.next + 1⟩
  | iterate (loop : Ioring.State (Handler G) τ) (awaitables : UseAwaitable.State ℕ ℤ Value C)
      (hl : (Ioring.machine (Handler G) τ).step s.loop .iterate = some loop)
      (ha : s.invoke ndebug = some awaitables) :
      Trans ndebug s (.loop .iterate) { s with loop, awaitables }
  | loop (a : Ioring.Act (Handler G) τ) (loop : Ioring.State (Handler G) τ)
      (hs : ∀ op i, a ≠ .start op (.awaitable i)) (hi : a ≠ .iterate)
      (hl : (Ioring.machine (Handler G) τ).step s.loop a = some loop) :
      Trans ndebug s (.loop a) { s with loop }

variable {ndebug : Bool} {s s' : State G τ C} {a : Act G τ C}

theorem loop_trans {b : Ioring.Act (Handler G) τ} (hs : ∀ op i, b ≠ .start op (.awaitable i))
    (hi : b ≠ .iterate)
    (h : (Ioring.step s.loop b).map (fun loop => { s with loop }) = some s') :
    Trans ndebug s (.loop b) s' := by
  obtain ⟨loop, hl, rfl⟩ := Option.map_eq_some_iff.mp h
  exact .loop b loop hs hi hl

theorem step_trans (h : (machine ndebug G τ C).step s a = some s') : Trans ndebug s a s' := by
  change step ndebug s a = some s' at h
  cases a with
  | coAwait op coroutine =>
    obtain ⟨loop, hl, h⟩ := Option.bind_eq_some_iff.mp h
    obtain ⟨awaitables, ha, rfl⟩ := Option.map_eq_some_iff.mp h
    exact .coAwait op coroutine loop awaitables hl ha
  | loop b =>
    cases b with
    | start op f =>
      cases f with
      | awaitable i => cases h
      | other g => exact loop_trans nofun nofun h
    | iterate =>
      obtain ⟨loop, hl, h⟩ := Option.bind_eq_some_iff.mp h
      obtain ⟨awaitables, ha, rfl⟩ := Option.map_eq_some_iff.mp h
      exact .iterate loop awaitables hl ha
    | _ => exact loop_trans nofun nofun h

def Handler.index? : Handler G → Option ℕ
  | .awaitable i => some i
  | .other _ => none

/-- The awaitables are those of the operations that have been started, in order; each has been
awaited, and its handler has seen the calls that the executor has made. -/
structure Inv (s : State G τ C) : Prop where
  loop : Ioring.Inv s.loop
  awaitables : UseAwaitable.Inv s.awaitables
  started : s.loop.operations.filterMap (fun p => p.2.index?) = List.range s.next
  awaited : ∀ i, s.awaitables.awaited i ≠ none ↔ i < s.next
  handled : ∀ i result,
    s.awaitables.handled i = some result ↔ (.awaitable i, result) ∈ s.loop.calls

theorem new_inv : Inv (.new : State G τ C) where
  loop := Ioring.new_inv
  awaitables _ := .pending none rfl rfl
  started := rfl
  awaited i := iff_of_false (fun h => h rfl) (Nat.not_lt_zero i)
  handled _ _ := iff_of_false nofun List.not_mem_nil

theorem Inv.due_awaitables (hs : Inv s) :
    ((s.loop.calls ++ s.loop.queued).filterMap fun c => c.1.index?).Nodup ∧
      ∀ i result, (.awaitable i, result) ∈ s.loop.calls ++ s.loop.queued → i < s.next := by
  -- the handlers of the awaitables that are called now or later are pairwise different, and have
  -- been awaited
  have hp := hs.loop.operations.filterMap fun p => p.2.index?
  rw [hs.started, List.filterMap_append, List.filterMap_map] at hp
  rw [← hs.loop.due_eq, List.filterMap_map]
  constructor
  · exact (List.nodup_append.mp (hp.nodup_iff.mp List.nodup_range)).1
  · intro i result hi
    obtain ⟨d, hd, he⟩ := List.mem_map.mp hi
    refine List.mem_range.mp (hp.mem_iff.mpr (List.mem_append_left _ ?_))
    refine List.mem_filterMap.mpr ⟨d, hd, ?_⟩
    exact congrArg (fun c => Handler.index? c.1) he

theorem Inv.handled_of_queued (hs : Inv s) {i : ℕ} {result : Except ℤ Value}
    (hi : (.awaitable i, result) ∈ s.loop.queued) : s.awaitables.handled i = none := by
  -- a handler whose call is queued has not been called
  by_contra hne
  obtain ⟨r, hr⟩ := Option.ne_none_iff_exists'.mp hne
  have hn := hs.due_awaitables.1
  rw [List.filterMap_append, List.nodup_append] at hn
  exact hn.2.2 i (List.mem_filterMap.mpr ⟨_, (hs.handled i r).mp hr, rfl⟩) i
    (List.mem_filterMap.mpr ⟨_, hi, rfl⟩) rfl

theorem Inv.handled_of_le (hs : Inv s) {i : ℕ} (hi : s.next ≤ i) :
    s.awaitables.handled i = none := by
  by_contra hne
  obtain ⟨r, hr⟩ := Option.ne_none_iff_exists'.mp hne
  have hlt := hs.due_awaitables.2 i r (List.mem_append_left _ ((hs.handled i r).mp hr))
  omega

theorem step_inv_coAwait {op : Operation} {coroutine : C} {loop : Ioring.State (Handler G) τ}
    {awaitables : UseAwaitable.State ℕ ℤ Value C} (hs : Inv s)
    (hl : (Ioring.machine (Handler G) τ).step s.loop (.start op (.awaitable s.next)) = some loop)
    (ha : (UseAwaitable.machine ℕ ℤ Value C ndebug).step s.awaitables (.await s.next coroutine) =
      some awaitables) :
    Inv (⟨loop, awaitables, s.next + 1⟩ : State G τ C) := by
  have hinv := UseAwaitable.step_inv (a := .await s.next coroutine) hs.awaitables
    (hs.handled_of_le (Nat.le_refl _)) ha
  obtain ⟨-, rfl⟩ := UseAwaitable.step_await ha
  refine ⟨Ioring.step_inv hs.loop hl, hinv, ?_, ?_, ?_⟩
  · change loop.operations.filterMap _ = List.range (s.next + 1)
    rw [Ioring.operations_of_step hl, List.filterMap_append, hs.started, List.range_succ]
    rfl
  · intro i
    change Function.update s.awaitables.awaited s.next (some coroutine) i ≠ none ↔ i < s.next + 1
    by_cases hi : i = s.next
    · subst hi
      rw [Function.update_self]
      exact iff_of_true nofun (Nat.lt_succ_self _)
    · rw [Function.update_of_ne hi, hs.awaited i]
      omega
  · intro i result
    change s.awaitables.handled i = some result ↔ _ ∈ loop.calls
    rw [Ioring.calls_of_step hl nofun, hs.handled i result]

theorem Inv.loop_step (hs : Inv s) {b : Ioring.Act (Handler G) τ}
    {loop : Ioring.State (Handler G) τ}
    (hl : (Ioring.machine (Handler G) τ).step s.loop b = some loop)
    (hb : ∀ op i, b ≠ .start op (.awaitable i))
    (hc : ∀ i result, (.awaitable i, result) ∈ loop.calls ↔ (.awaitable i, result) ∈ s.loop.calls) :
    Inv { s with loop } := by
  refine ⟨Ioring.step_inv hs.loop hl, hs.awaitables, ?_, hs.awaited, ?_⟩
  · change loop.operations.filterMap _ = List.range s.next
    rw [Ioring.operations_of_step hl, List.filterMap_append, hs.started]
    cases b with
    | start op f =>
      cases f with
      | awaitable i => exact absurd rfl (hb op i)
      | other g => exact List.append_nil _
    | _ => exact List.append_nil _
  · intro i result
    exact (hs.handled i result).trans (hc i result).symm

theorem step_inv_handler {i : ℕ} {result : Except ℤ Value} {loop : Ioring.State (Handler G) τ}
    {awaitables : UseAwaitable.State ℕ ℤ Value C} (hs : Inv s)
    (hl : (Ioring.machine (Handler G) τ).step s.loop .iterate = some loop)
    (hc : loop.calls = s.loop.calls ++ [(.awaitable i, result)])
    (ha : (UseAwaitable.machine ℕ ℤ Value C ndebug).step s.awaitables (.handler i result) =
      some awaitables) : Inv { s with loop, awaitables } := by
  have hinv := UseAwaitable.step_inv (a := .handler i result) hs.awaitables trivial ha
  obtain ⟨hn, rfl⟩ := UseAwaitable.step_handler ha
  refine ⟨Ioring.step_inv hs.loop hl, hinv, ?_, hs.awaited, ?_⟩
  · change loop.operations.filterMap _ = List.range s.next
    rw [Ioring.operations_of_step hl, List.filterMap_append, hs.started]
    exact List.append_nil _
  · intro j r
    change Function.update s.awaitables.handled i (some result) j = some r ↔ _ ∈ loop.calls
    rw [hc, List.mem_append, List.mem_singleton, Prod.mk.injEq, Handler.awaitable.injEq]
    by_cases hj : j = i
    · subst hj
      have hnone : (.awaitable j, r) ∉ s.loop.calls := by
        rw [← hs.handled j r, hn]
        exact nofun
      rw [Function.update_self, Option.some.injEq]
      exact ⟨fun h => .inr ⟨rfl, h.symm⟩, fun h => (h.resolve_left hnone).2.symm⟩
    · rw [Function.update_of_ne hj, hs.handled j r]
      exact ⟨.inl, fun h => h.resolve_right fun h => hj h.1⟩

theorem step_inv (hs : Inv s) (h : (machine ndebug G τ C).step s a = some s') : Inv s' := by
  cases step_trans h with
  | coAwait op coroutine loop awaitables hl ha => exact step_inv_coAwait hs hl ha
  | loop b loop hb hi hl =>
    refine hs.loop_step hl hb fun i result => ?_
    rw [Ioring.calls_of_step hl hi]
  | iterate loop awaitables hl ha =>
    unfold State.invoke at ha
    rcases Ioring.iterate_cases hl with ⟨hq, hc⟩ | ⟨t, queue, hq, hc⟩
    · rw [hq] at ha
      cases ha
      exact hs.loop_step hl nofun fun i result => by rw [hc]
    · rw [hq] at ha
      cases t with
      | other task =>
        cases ha
        exact hs.loop_step hl nofun fun i result => by rw [hc]; simp [Task.call?]
      | completion f op result =>
        cases f with
        | awaitable i => exact step_inv_handler hs hl hc ha
        | other g =>
          cases ha
          exact hs.loop_step hl nofun fun i result => by rw [hc]; simp [Task.call?]

theorem run_inv {acts : List (Act G τ C)} (h : (machine ndebug G τ C).run .new acts = some s) :
    Inv s :=
  Machine.invariant_of_step (fun _ _ _ hs hstep => step_inv hs hstep) new_inv h

theorem Inv.resumed_nil (hs : Inv s) {i : ℕ} (hi : s.awaitables.handled i = none) :
    s.awaitables.resumed i = [] := by
  have hst := hs.awaitables i
  rw [hi] at hst
  cases hst
  assumption

/-- The executor can always go on: it calls no handler a second time. -/
theorem Inv.iterate_enabled (hs : Inv s) (ndebug : Bool) {loop : Ioring.State (Handler G) τ}
    (h : Ioring.step s.loop .iterate = some loop) :
    ∃ s', step ndebug s (.loop .iterate) = some s' := by
  have hi : ∃ awaitables, s.invoke ndebug = some awaitables := by
    unfold State.invoke
    split
    · rename_i i op result queue hq
      have hn : s.awaitables.handled i = none := by
        have hmem : (.awaitable i, op.report result) ∈ s.loop.queued := by
          rw [Ioring.State.queued, hq]
          exact List.mem_cons_self
        exact hs.handled_of_queued hmem
      rw [UseAwaitable.step, if_neg (by rw [hn]; exact Bool.false_ne_true)]
      exact ⟨_, rfl⟩
    · exact ⟨_, rfl⟩
  obtain ⟨awaitables, ha⟩ := hi
  refine ⟨{ s with loop, awaitables }, ?_⟩
  rw [step, h, Option.bind_some, ha]
  rfl

theorem Inv.resumed_of_delivered (hs : Inv s) {op : Operation} {i : ℕ} {result : BitVec 32}
    (hd : (op, .awaitable i, result) ∈ s.loop.delivered) :
    ∃ coroutine, s.awaitables.awaited i = some coroutine ∧
      ((.awaitable i, op.report result) ∈ s.loop.queued ∧ s.awaitables.resumed i = [] ∨
        (.awaitable i, op.report result) ∈ s.loop.calls ∧
          s.awaitables.resumed i = [(coroutine, some (op.report result))]) := by
  have hdue : (.awaitable i, op.report result) ∈ s.loop.calls ++ s.loop.queued := by
    rw [← hs.loop.due_eq]
    exact List.mem_map.mpr ⟨_, hd, rfl⟩
  have hlt := hs.due_awaitables.2 i _ hdue
  obtain ⟨coroutine, hc⟩ := Option.ne_none_iff_exists'.mp ((hs.awaited i).mpr hlt)
  refine ⟨coroutine, hc, ?_⟩
  rcases List.mem_append.mp hdue with hcall | hqueue
  · exact .inr ⟨hcall, hs.awaitables.noneLost i _ coroutine ((hs.handled i _).mpr hcall) hc⟩
  · exact .inl ⟨hqueue, hs.resumed_nil (hs.handled_of_queued hqueue)⟩

theorem Inv.resumed_of_not_delivered (hs : Inv s) {i : ℕ}
    (hd : ∀ op result, (op, .awaitable i, result) ∉ s.loop.delivered) :
    s.awaitables.resumed i = [] := by
  apply hs.resumed_nil
  by_contra hne
  obtain ⟨r, hr⟩ := Option.ne_none_iff_exists'.mp hne
  have hmem := List.mem_append_left s.loop.queued ((hs.handled i r).mp hr)
  rw [← hs.loop.due_eq] at hmem
  obtain ⟨⟨op, f, result⟩, hmem, he⟩ := List.mem_map.mp hmem
  cases congrArg Prod.fst he
  exact hd op result hmem

/-- `co_await async_close(…)` never returns: what it throws on success has the code 0. -/
theorem co_await_close_throws {acts : List (Act G τ C)}
    (h : (machine ndebug G τ C).run .new acts = some s) {i : ℕ} {result : BitVec 32}
    (hd : (.closeOperation, .awaitable i, result) ∈ s.loop.delivered) :
    ∀ r ∈ s.awaitables.resumed i, ∃ e, r.2 = some (.error e) := by
  intro r hr
  obtain ⟨e, he⟩ := Ioring.report_closeOperation result
  obtain ⟨coroutine, -, ⟨-, hn⟩ | ⟨-, hn⟩⟩ := (run_inv h).resumed_of_delivered hd
  · rw [hn] at hr
    exact absurd hr List.not_mem_nil
  · rw [hn, List.mem_singleton] at hr
    exact ⟨e, by rw [hr, he]⟩

/-- In every run of the event loop, over a service that hands each started operation its
CQE: the executor calls no handler of an awaitable twice;
an operation whose CQE has been delivered has a coroutine that awaits it, which has been
resumed once, with what the CQE says, if the posted task has been started, and not at all if
it is queued; and no coroutine is resumed before the CQE is delivered. -/
theorem co_await_resumes_once {acts : List (Act G τ C)}
    (h : (machine ndebug G τ C).run .new acts = some s) :
    ((∃ loop, Ioring.step s.loop .iterate = some loop) →
        ∃ s', step ndebug s (.loop .iterate) = some s') ∧
      (∀ op i result, (op, .awaitable i, result) ∈ s.loop.delivered →
        ∃ coroutine, s.awaitables.awaited i = some coroutine ∧
          ((.awaitable i, op.report result) ∈ s.loop.queued ∧ s.awaitables.resumed i = [] ∨
            (.awaitable i, op.report result) ∈ s.loop.calls ∧
              s.awaitables.resumed i = [(coroutine, some (op.report result))])) ∧
      ∀ i, (∀ op result, (op, .awaitable i, result) ∉ s.loop.delivered) →
        s.awaitables.resumed i = [] := by
  have hs := run_inv h
  exact ⟨fun ⟨loop, hl⟩ => hs.iterate_enabled ndebug hl, fun op i result => hs.resumed_of_delivered,
    fun i => hs.resumed_of_not_delivered⟩

/-- The second operation completes first, and resumes its coroutine with an exception. -/
theorem co_await_resumes_once_close : ∃ s, (machine true ℕ ℕ ℕ).run .new
        [.coAwait .readOperation 7, .coAwait .closeOperation 8, .loop (.deliver 1 0), .loop .run,
          .loop .iterate] = some s ∧
      s.awaitables.resumed 1 = [(8, some (.error 0))] ∧ s.awaitables.resumed 0 = [] := by
  obtain ⟨s, h, hd, hr⟩ : ∃ s, (machine true ℕ ℕ ℕ).run .new
        [.coAwait .readOperation 7, .coAwait .closeOperation 8, .loop (.deliver 1 0), .loop .run,
          .loop .iterate] = some s ∧
      s.loop.delivered = [(.closeOperation, .awaitable 1, 0)] ∧
        s.awaitables.resumed 1 = [(8, some (.error 0))] := ⟨_, rfl, rfl, rfl⟩
  refine ⟨s, h, hr, (co_await_resumes_once h).2.2 0 ?_⟩
  intro op result hmem
  rw [hd] at hmem
  simp at hmem

end BadIo.Async.CoAwait
