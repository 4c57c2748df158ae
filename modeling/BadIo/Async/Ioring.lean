import Mathlib.Data.List.Perm.Basic
import BadIo.ExecutionContext.Unsynchronized
import BadIo.Async.Stat

namespace BadIo.Async.Ioring

open UnsynchronizedExecutionContext (started posted)

/-- `ioring_read_operation` and so on: the operations whose completions take a CQE. -/
inductive Operation where
  | readOperation
  | openOperation
  | closeOperation
  | statatOperation
  deriving DecidableEq

inductive Value where
  | size (n : ℕ)
  | handle (fd : ℤ)
  | monostate
  deriving DecidableEq

/-- The variant that the posted task makes of the result, with the error code as the first
alternative. -/
def Operation.report : Operation → BitVec 32 → Except ℤ Value
  | .readOperation, result =>
    if result.toInt < 0 then .error (-result).toInt else .ok (.size (result.signExtend 64).toNat)
  | .openOperation, result =>
    if result.toInt < 0 then .error (-result).toInt else .ok (.handle result.toInt)
  | .closeOperation, result =>
    -- both calls pass an `std::error_code`, which converts to the first alternative
    if result.toInt < 0 then .error (-result).toInt else .error 0
  | .statatOperation, result =>
    if result.toInt < 0 then .error result.toInt else .ok .monostate

theorem report_statatOperation (statxbuf : IoringStat.Statx) (statbuf : IoringStat.Stat)
    (result : BitVec 32) : Operation.statatOperation.report result =
      (IoringStat.complete statxbuf statbuf result).2.map fun _ => .monostate := by
  rw [Operation.report, IoringStat.complete]
  split <;> rfl

theorem report_closeOperation (result : BitVec 32) :
    ∃ e, Operation.closeOperation.report result = .error e := by
  rw [Operation.report]
  split
  · exact ⟨_, rfl⟩
  · exact ⟨_, rfl⟩

inductive Task (F τ : Type*) where
  | completion (f : F) (op : Operation) (result : BitVec 32)
  | other (task : τ)
  deriving DecidableEq

variable {F τ : Type*}

def Task.call? : Task F τ → Option (F × Except ℤ Value)
  | .completion f op result => some (f, op.report result)
  | .other _ => none

structure State (F τ : Type*) where
  executor : UnsynchronizedExecutionContext.State (Task F τ)
  /-- The operations whose CQE has not come. -/
  inFlight : List (Operation × F)
  /-- All operations that have been started, and all CQEs that have been delivered. -/
  operations : List (Operation × F)
  delivered : List (Operation × F × BitVec 32)
  deriving DecidableEq

def State.new : State F τ := ⟨.new, [], [], []⟩

inductive Act (F τ : Type*) where
  | start (op : Operation) (f : F)
  | deliver (n : ℕ) (result : BitVec 32)
  | post (task : τ)
  | run
  | iterate
  | finish
  | throw
  | destroyed
  deriving DecidableEq

def State.executes (s : State F τ) (a : UnsynchronizedExecutionContext.Act (Task F τ)) :
    Option (State F τ) :=
  (UnsynchronizedExecutionContext.step s.executor a).map fun executor => { s with executor }

def step (s : State F τ) : Act F τ → Option (State F τ)
  | .start op f =>
    if s.executor.inUserCode then some { s with
      inFlight := s.inFlight ++ [(op, f)]
      operations := s.operations ++ [(op, f)] }
    else none
  | .deliver n result =>
    (s.inFlight[n]?).bind fun p =>
      (s.executes (.post (.completion p.2 p.1 result))).map fun s' => { s' with
        inFlight := s.inFlight.eraseIdx n
        delivered := s.delivered ++ [(p.1, p.2, result)] }
  | .post task => s.executes (.post (.other task))
  | .run => s.executes .run
  | .iterate => s.executes .iterate
  | .finish => s.executes .finish
  | .throw => s.executes .throw
  | .destroyed => s.executes .destroyed

def machine (F τ : Type*) : Machine (State F τ) (Act F τ) := ⟨step⟩

/-- The calls of handlers so far, in order. -/
def State.calls (s : State F τ) : List (F × Except ℤ Value) :=
  (started s.executor.log).filterMap Task.call?

def State.queued (s : State F τ) : List (F × Except ℤ Value) :=
  s.executor.functionQueue.filterMap Task.call?

def due (d : Operation × F × BitVec 32) : F × Except ℤ Value := (d.2.1, d.1.report d.2.2)

inductive Trans (s : State F τ) : Act F τ → State F τ → Prop where
  | start (op : Operation) (f : F) : Trans s (.start op f) { s with
      inFlight := s.inFlight ++ [(op, f)]
      operations := s.operations ++ [(op, f)] }
  | deliver (n : ℕ) (result : BitVec 32) (p : Operation × F)
      (executor : UnsynchronizedExecutionContext.State (Task F τ)) (hp : s.inFlight[n]? = some p)
      (h : UnsynchronizedExecutionContext.step s.executor
        (.post (.completion p.2 p.1 result)) = some executor) :
      Trans s (.deliver n result) { s with
        executor
        inFlight := s.inFlight.eraseIdx n
        delivered := s.delivered ++ [(p.1, p.2, result)] }
  | executes (a : Act F τ) (b : UnsynchronizedExecutionContext.Act (Task F τ))
      (executor : UnsynchronizedExecutionContext.State (Task F τ))
      (hb : ∀ f op result, b ≠ .post (.completion f op result)) (hi : b = .iterate → a = .iterate)
      (h : UnsynchronizedExecutionContext.step s.executor b = some executor) :
      Trans s a { s with executor }

theorem executes_trans {s s' : State F τ} {b : UnsynchronizedExecutionContext.Act (Task F τ)}
    (a : Act F τ) (hb : ∀ f op result, b ≠ .post (.completion f op result))
    (hi : b = .iterate → a = .iterate) (h : s.executes b = some s') : Trans s a s' := by
  obtain ⟨executor, he, rfl⟩ := Option.map_eq_some_iff.mp h
  exact .executes a b executor hb hi he

theorem step_trans {s s' : State F τ} {a : Act F τ} (h : (machine F τ).step s a = some s') :
    Trans s a s' := by
  change step s a = some s' at h
  cases a with
  | start op f =>
    rw [step] at h
    split at h
    · cases h
      exact .start op f
    · cases h
  | deliver n result =>
    obtain ⟨p, hp, h⟩ := Option.bind_eq_some_iff.mp h
    obtain ⟨s₁, hs, rfl⟩ := Option.map_eq_some_iff.mp h
    obtain ⟨executor, he, rfl⟩ := Option.map_eq_some_iff.mp hs
    exact .deliver n result p executor hp he
  | post task => exact executes_trans (b := .post (.other task)) _ nofun nofun h
  | run => exact executes_trans (b := .run) _ nofun nofun h
  | iterate => exact executes_trans (b := .iterate) _ nofun (fun _ => rfl) h
  | finish => exact executes_trans (b := .finish) _ nofun nofun h
  | throw => exact executes_trans (b := .throw) _ nofun nofun h
  | destroyed => exact executes_trans (b := .destroyed) _ nofun nofun h

def posts : UnsynchronizedExecutionContext.Act (Task F τ) → List (Task F τ)
  | .post t => [t]
  | _ => []

theorem posted_of_step {e e' : UnsynchronizedExecutionContext.State (Task F τ)}
    {b : UnsynchronizedExecutionContext.Act (Task F τ)}
    (h : UnsynchronizedExecutionContext.step e b = some e') :
    posted e'.log = posted e.log ++ posts b := by
  change (UnsynchronizedExecutionContext.machine (Task F τ)).step e b = some e' at h
  cases UnsynchronizedExecutionContext.step_trans h with
  | post | leave | start | unwind =>
    simp [posts, UnsynchronizedExecutionContext.Event.post?]
  | _ => exact (List.append_nil _).symm

structure Inv (s : State F τ) : Prop where
  executor : ∃ acts, (UnsynchronizedExecutionContext.machine (Task F τ)).run .new acts =
    some s.executor
  posted : (posted s.executor.log).filterMap Task.call? = s.delivered.map due
  operations : s.operations.Perm (s.delivered.map (fun d => (d.1, d.2.1)) ++ s.inFlight)

theorem new_inv : Inv (.new : State F τ) := ⟨⟨[], rfl⟩, rfl, .refl _⟩

theorem executor_reachable {e e' : UnsynchronizedExecutionContext.State (Task F τ)}
    {b : UnsynchronizedExecutionContext.Act (Task F τ)}
    (he : ∃ acts, (UnsynchronizedExecutionContext.machine (Task F τ)).run .new acts = some e)
    (h : UnsynchronizedExecutionContext.step e b = some e') :
    ∃ acts, (UnsynchronizedExecutionContext.machine (Task F τ)).run .new acts = some e' :=
  Machine.Reachable.tail he h

theorem step_inv {s s' : State F τ} {a : Act F τ} (hs : Inv s)
    (h : (machine F τ).step s a = some s') : Inv s' := by
  cases step_trans h with
  | start op f =>
    refine ⟨hs.executor, hs.posted, ?_⟩
    change (s.operations ++ [(op, f)]).Perm (_ ++ (s.inFlight ++ [(op, f)]))
    rw [← List.append_assoc]
    exact hs.operations.append_right _
  | deliver n result p executor hp he =>
    obtain ⟨hn, rfl⟩ := List.getElem?_eq_some_iff.mp hp
    refine ⟨executor_reachable hs.executor he, ?_, ?_⟩
    · change (posted executor.log).filterMap Task.call? = _
      rw [posted_of_step he, List.filterMap_append, hs.posted]
      change _ = List.map due (s.delivered ++ [_])
      rw [List.map_append]
      rfl
    · change s.operations.Perm ((s.delivered ++ [_]).map _ ++ s.inFlight.eraseIdx n)
      rw [List.map_append, List.append_assoc]
      exact hs.operations.trans ((List.getElem_cons_eraseIdx_perm hn).symm.append_left _)
  | executes _ b executor hb hi he =>
    refine ⟨executor_reachable hs.executor he, ?_, hs.operations⟩
    change (posted executor.log).filterMap Task.call? = s.delivered.map due
    rw [posted_of_step he, List.filterMap_append, hs.posted]
    cases b with
    | post t =>
      cases t with
      | completion f op result => exact absurd rfl (hb f op result)
      | other task => exact List.append_nil _
    | _ => exact List.append_nil _

theorem run_inv {acts : List (Act F τ)} {s : State F τ}
    (h : (machine F τ).run .new acts = some s) : Inv s :=
  Machine.invariant_of_step (fun _ _ _ hs hstep => step_inv hs hstep) new_inv h

theorem Inv.due_eq {s : State F τ} (hs : Inv s) : s.delivered.map due = s.calls ++ s.queued := by
  obtain ⟨as, he⟩ := hs.executor
  rw [← hs.posted, UnsynchronizedExecutionContext.posted_eq_started_append he,
    List.filterMap_append]
  rfl

theorem started_of_step {e e' : UnsynchronizedExecutionContext.State (Task F τ)}
    {b : UnsynchronizedExecutionContext.Act (Task F τ)}
    (h : UnsynchronizedExecutionContext.step e b = some e') (hb : b ≠ .iterate) :
    started e'.log = started e.log := by
  change (UnsynchronizedExecutionContext.machine (Task F τ)).step e b = some e' at h
  cases UnsynchronizedExecutionContext.step_trans h with
  | leave | start => exact absurd rfl hb
  | post | unwind => simp [UnsynchronizedExecutionContext.Event.start?]
  | _ => rfl

theorem calls_of_step {s s' : State F τ} {a : Act F τ} (h : (machine F τ).step s a = some s')
    (ha : a ≠ .iterate) : s'.calls = s.calls := by
  cases step_trans h with
  | start op f => rfl
  | deliver n result p executor hp he =>
    exact congrArg (List.filterMap Task.call?) (started_of_step he nofun)
  | executes _ b executor hb hi he =>
    exact congrArg (List.filterMap Task.call?) (started_of_step he fun h => ha (hi h))

theorem iterate_cases {s s' : State F τ} (h : (machine F τ).step s .iterate = some s') :
    s.executor.functionQueue = [] ∧ s'.calls = s.calls ∨
      ∃ t queue, s.executor.functionQueue = t :: queue ∧
        s'.calls = s.calls ++ (Task.call? t).toList := by
  obtain ⟨executor, he, rfl⟩ := Option.map_eq_some_iff.mp h
  change (UnsynchronizedExecutionContext.machine (Task F τ)).step s.executor .iterate =
    some executor at he
  unfold State.calls
  cases UnsynchronizedExecutionContext.step_trans he with
  | leave hf hq =>
    refine .inl ⟨hq, ?_⟩
    simp [UnsynchronizedExecutionContext.Event.start?]
  | @start call count rest t queue hf hq =>
    refine .inr ⟨t, queue, hq, ?_⟩
    rw [UnsynchronizedExecutionContext.started_snoc, List.filterMap_append]
    cases t <;> rfl

def starts : Act F τ → List (Operation × F)
  | .start op f => [(op, f)]
  | _ => []

theorem operations_of_step {s s' : State F τ} {a : Act F τ}
    (h : (machine F τ).step s a = some s') : s'.operations = s.operations ++ starts a := by
  change step s a = some s' at h
  cases a with
  | start op f =>
    simp only [step, Option.ite_none_right_eq_some, Option.some.injEq] at h
    obtain ⟨-, rfl⟩ := h
    rfl
  | deliver n result =>
    obtain ⟨p, -, h⟩ := Option.bind_eq_some_iff.mp h
    obtain ⟨s₁, hs, rfl⟩ := Option.map_eq_some_iff.mp h
    obtain ⟨executor, -, rfl⟩ := Option.map_eq_some_iff.mp hs
    exact (List.append_nil _).symm
  | _ =>
    obtain ⟨executor, -, rfl⟩ := Option.map_eq_some_iff.mp h
    exact (List.append_nil _).symm

/-- In every run, with the executor run from wherever, tasks that post, run the executor
themselves or throw, and CQEs in any order: the handlers are called in the order in which
the CQEs were delivered, each with the result of its own CQE, and the calls still due are
those queued in the executor; and every operation that has been started either has its CQE
to come or has been delivered, once. -/
theorem handlers_in_order {acts : List (Act F τ)} {s : State F τ}
    (h : (machine F τ).run .new acts = some s) :
    s.delivered.map due = s.calls ++ s.queued ∧
      s.operations.Perm (s.delivered.map (fun d => (d.1, d.2.1)) ++ s.inFlight) :=
  ⟨(run_inv h).due_eq, (run_inv h).operations⟩

/-- The second operation completes first; its handler runs the executor itself, which calls
that of the first one meanwhile. -/
theorem handlers_in_order_nested : ∃ s, (machine ℕ ℕ).run .new
        [.start .readOperation 0, .start .closeOperation 1, .deliver 1 0, .deliver 0 7, .run,
          .iterate, .run, .iterate] = some s ∧
      (s.calls = [(1, .error 0), (0, .ok (.size 7))] ∧ s.queued = []) ∧
      s.delivered.map due = s.calls ++ s.queued := by
  obtain ⟨s, h, hs⟩ : ∃ s, (machine ℕ ℕ).run .new
        [.start .readOperation 0, .start .closeOperation 1, .deliver 1 0, .deliver 0 7, .run,
          .iterate, .run, .iterate] = some s ∧
      s.calls = [(1, .error 0), (0, .ok (.size 7))] ∧ s.queued = [] := ⟨_, rfl, rfl, rfl⟩
  exact ⟨s, h, hs, (handlers_in_order h).1⟩

end BadIo.Async.Ioring
