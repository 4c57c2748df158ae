import Mathlib.Data.List.Basic
import Mathlib.Data.Int.Order.Basic
import Mathlib.Logic.Function.Basic
import BadIo.Machine

namespace BadIo.EpollAccept

def invalidHandle : ℤ := -1

/-- What a posted task has captured: the poll result, and where the caller keeps the length
of the address, if it gave a pointer. -/
structure Operation where
  result : ℤ
  addrLen : Option ℕ
  deriving DecidableEq

/-- The outcome of `accept4`: a new descriptor with the length it reported, or `errno`. -/
inductive Accepted where
  | connected (newFd : ℕ) (realLen : BitVec 32)
  | failed (errno : ℤ)
  deriving DecidableEq

/-- What an invocation of a handler does: the `errno` it leaves, and whether it throws. -/
structure Handled where
  errno : ℤ
  throws : Bool

/-- The state of a task under way: memory, `errno`, the error codes and descriptors that its
handler has been invoked with, and whether that has thrown. -/
structure Task where
  memory : ℕ → BitVec 64
  errno : ℤ
  invoked : List (ℤ × ℤ)
  threw : Bool

def Task.start (memory : ℕ → BitVec 64) (errno : ℤ) : Task := ⟨memory, errno, [], false⟩

def Task.invoke (t : Task) (error fd : ℤ) (h : Handled) : Task :=
  if t.threw then t
  else { t with errno := h.errno, invoked := t.invoked ++ [(error, fd)], threw := h.throws }

/-- The body of the task; `h₁` is for the invocation inside the branches of success, `h₂` for
the other one. -/
def call (op : Operation) (outcome : Accepted) (h₁ h₂ : Handled) (t : Task) : Task :=
  if op.result < 0 then t.invoke (-op.result) invalidHandle h₂
  else
    let t' := match op.addrLen, outcome with
      | _, .failed errno => { t with errno := errno }
      | none, .connected newFd _ => t.invoke 0 newFd h₁
      | some p, .connected newFd realLen =>
        { t with memory := Function.update t.memory p (realLen.setWidth 64) }.invoke 0 newFd h₁
    -- reached after a success as well
    t'.invoke t'.errno invalidHandle h₂

structure State where
  ops : List Operation
  /-- The outcome that `accept4` had, or would have had, for each task executed. -/
  done : ℕ → Option Accepted
  memory : ℕ → BitVec 64
  errno : ℤ
  called : ℕ → List (ℤ × ℤ)

inductive Action where
  | post (op : Operation)
  | execute (i : ℕ) (outcome : Accepted) (h₁ h₂ : Handled)

def State.execute (s : State) (i : ℕ) (op : Operation) (outcome : Accepted) (h₁ h₂ : Handled) :
    State :=
  let t := call op outcome h₁ h₂ (.start s.memory s.errno)
  { s with
    done := Function.update s.done i (some outcome)
    memory := t.memory
    errno := t.errno
    called := Function.update s.called i (s.called i ++ t.invoked) }

def machine : Machine State Action where
  step
    | s, .post op => some { s with ops := s.ops ++ [op] }
    | s, .execute i outcome h₁ h₂ => match s.ops[i]?, s.done i with
      | some op, none => some (s.execute i op outcome h₁ h₂)
      | _, _ => none

def init (memory : ℕ → BitVec 64) (errno : ℤ) : State :=
  ⟨[], fun _ => none, memory, errno, fun _ => []⟩

def expected (op : Operation) (outcome : Accepted) : ℤ × ℤ :=
  if op.result < 0 then (-op.result, invalidHandle)
  else match outcome with
    | .connected newFd _ => (0, newFd)
    | .failed errno => (errno, invalidHandle)

def expectedMemory (memory : ℕ → BitVec 64) (op : Operation) (outcome : Accepted) :
    ℕ → BitVec 64 :=
  if op.result < 0 then memory
  else match op.addrLen, outcome with
    | some p, .connected _ realLen => Function.update memory p (realLen.setWidth 64)
    | _, _ => memory

/-- Each task that has been executed has invoked its handler once, with what it is for, and
each other one not at all. -/
structure Once (s : State) : Prop where
  executed : ∀ (i : ℕ) op outcome, s.ops[i]? = some op → s.done i = some outcome →
    s.called i = [expected op outcome]
  waiting : ∀ i, s.done i = none → s.called i = []

def Right (s : State) : Action → State → Prop
  | .post _, s' => Once s'
  | .execute i outcome _ _, s' => Once s' ∧
    ∀ op, s.ops[i]? = some op → s'.memory = expectedMemory s.memory op outcome

/-- The poll result is negative, or `accept4` fails, or the handler throws when it is told of
the success. -/
def NoFallThrough (s : State) : Action → State → Prop
  | .post _, _ => True
  | .execute i outcome h₁ _, _ => ∀ op, s.ops[i]? = some op →
    op.result < 0 ∨ (∃ errno, outcome = .failed errno) ∨ h₁.throws = true

theorem invoke_memory (t : Task) (error fd : ℤ) (h : Handled) :
    (t.invoke error fd h).memory = t.memory := by
  unfold Task.invoke
  split <;> rfl

variable (op : Operation) (outcome : Accepted) (h₁ h₂ : Handled) (memory : ℕ → BitVec 64)
  (errno : ℤ)

theorem call_memory :
    (call op outcome h₁ h₂ (.start memory errno)).memory = expectedMemory memory op outcome := by
  unfold call expectedMemory
  split
  · rw [invoke_memory]
    rfl
  rw [invoke_memory]
  cases op.addrLen with
  | none =>
    cases outcome with
    | failed e => rfl
    | connected newFd realLen => exact invoke_memory _ _ _ _
  | some p =>
    cases outcome with
    | failed e => rfl
    | connected newFd realLen => exact invoke_memory _ _ _ _

/-- Where the task stops before the last line or has not called its handler by then. -/
theorem call_invoked_once
    (h : op.result < 0 ∨ (∃ e, outcome = .failed e) ∨ h₁.throws = true) :
    (call op outcome h₁ h₂ (.start memory errno)).invoked = [expected op outcome] := by
  unfold call expected Task.start Task.invoke
  by_cases hneg : op.result < 0
  · rw [if_pos hneg, if_pos hneg]
    rfl
  · rw [if_neg hneg, if_neg hneg]
    cases outcome with
    | failed e => cases op.addrLen <;> rfl
    | connected newFd realLen =>
      have hthrows : h₁.throws = true := by
        rcases h with h | ⟨e, he⟩ | h
        · exact absurd h hneg
        · cases he
        · exact h
      cases op.addrLen with
      | none =>
        dsimp only
        rw [if_neg Bool.false_ne_true, if_pos hthrows]
        rfl
      | some p =>
        dsimp only
        rw [if_neg Bool.false_ne_true, if_pos hthrows]
        rfl

/-- After a success the handler is invoked again, with the `errno` that it has left. -/
theorem call_invoked_twice {newFd : ℕ} {realLen : BitVec 32} (hnonneg : ¬ op.result < 0)
    (hreturns : h₁.throws = false) :
    (call op (.connected newFd realLen) h₁ h₂ (.start memory errno)).invoked =
      [(0, (newFd : ℤ)), (h₁.errno, invalidHandle)] := by
  unfold call Task.start Task.invoke
  rw [if_neg hnonneg]
  cases op.addrLen with
  | none => simp [hreturns]
  | some p => simp [hreturns]

theorem invoked_once_iff :
    (call op outcome h₁ h₂ (.start memory errno)).invoked = [expected op outcome] ↔
      op.result < 0 ∨ (∃ e, outcome = .failed e) ∨ h₁.throws = true := by
  refine ⟨fun h => ?_, call_invoked_once op outcome h₁ h₂ memory errno⟩
  by_contra hnone
  rw [not_or, not_or, Bool.not_eq_true] at hnone
  obtain ⟨hnonneg, hconnected, hreturns⟩ := hnone
  cases outcome with
  | failed e => exact hconnected ⟨e, rfl⟩
  | connected newFd realLen =>
    have hlen := congrArg List.length h
    rw [call_invoked_twice op h₁ h₂ memory errno hnonneg hreturns] at hlen
    exact absurd hlen (by simp)

variable {op outcome h₁ h₂} {s s' : State} {i : ℕ}

theorem Once.post (h : Once s) (hdone : ∀ i, s.ops.length ≤ i → s.done i = none) :
    Once { s with ops := s.ops ++ [op] } := by
  refine ⟨fun j op' o hop hd => ?_, h.waiting⟩
  have hd' : s.done j = some o := hd
  have hlt : j < s.ops.length := by
    by_contra hge
    rw [hdone j (Nat.le_of_not_lt hge)] at hd'
    cases hd'
  have hop' : (s.ops ++ [op])[j]? = some op' := hop
  rw [List.getElem?_append_left hlt] at hop'
  exact h.executed j op' o hop' hd'

theorem once_execute_iff (h : Once s) (hop : s.ops[i]? = some op) (hnew : s.done i = none) :
    Once (s.execute i op outcome h₁ h₂) ↔
      (call op outcome h₁ h₂ (.start s.memory s.errno)).invoked = [expected op outcome] := by
  have hself : (s.execute i op outcome h₁ h₂).called i =
      (call op outcome h₁ h₂ (.start s.memory s.errno)).invoked := by
    show Function.update s.called i (s.called i ++ _) i = _
    rw [Function.update_self, h.waiting i hnew, List.nil_append]
  have hother : ∀ j, j ≠ i → (s.execute i op outcome h₁ h₂).called j = s.called j ∧
      (s.execute i op outcome h₁ h₂).done j = s.done j :=
    fun j hj => ⟨Function.update_of_ne hj _ _, Function.update_of_ne hj _ _⟩
  have hdone : (s.execute i op outcome h₁ h₂).done i = some outcome :=
    Function.update_self _ _ _
  constructor
  · intro hn
    rw [← hself]
    exact hn.executed i op outcome hop hdone
  · intro hinvoked
    refine ⟨fun j op' o hop' hd => ?_, fun j hd => ?_⟩
    · by_cases hj : j = i
      · subst hj
        obtain rfl := Option.some.inj (hop.symm.trans hop')
        obtain rfl := Option.some.inj (hdone.symm.trans hd)
        rw [hself]
        exact hinvoked
      · rw [(hother j hj).1]
        exact h.executed j op' o hop' ((hother j hj).2 ▸ hd)
    · have hj : j ≠ i := by
        rintro rfl
        rw [hdone] at hd
        cases hd
      rw [(hother j hj).1]
      exact h.waiting j ((hother j hj).2 ▸ hd)

structure Inv (s : State) : Prop where
  once : Once s
  done : ∀ i, s.ops.length ≤ i → s.done i = none

theorem step_execute (hs : machine.step s (.execute i outcome h₁ h₂) = some s') :
    ∃ op, s.ops[i]? = some op ∧ s.done i = none ∧ s' = s.execute i op outcome h₁ h₂ := by
  change (match s.ops[i]?, s.done i with
    | some op, none => some (s.execute i op outcome h₁ h₂)
    | _, _ => none) = some s' at hs
  split at hs
  · rename_i op hop hnew
    exact ⟨op, hop, hnew, (Option.some.inj hs).symm⟩
  · cases hs

theorem right_iff (s : State) (a : Action) (s' : State) (hI : Inv s)
    (hs : machine.step s a = some s') : Right s a s' ↔ NoFallThrough s a s' := by
  cases a with
  | post op =>
    cases hs
    exact iff_of_true (hI.once.post hI.done) trivial
  | execute i outcome h₁ h₂ =>
    obtain ⟨op, hop, hnew, rfl⟩ := step_execute hs
    have hall : ∀ p : Operation → Prop, (∀ op', s.ops[i]? = some op' → p op') ↔ p op :=
      fun p => ⟨fun hp => hp op hop, fun hp op' hop' => Option.some.inj (hop.symm.trans hop') ▸ hp⟩
    show Once _ ∧ (∀ op', _ → _) ↔ ∀ op', _ → _
    rw [hall, hall, once_execute_iff hI.once hop hnew, invoked_once_iff]
    exact and_iff_left (call_memory op outcome h₁ h₂ s.memory s.errno)

theorem inv_step (s : State) (a : Action) (s' : State) (hI : Inv s) (hC : NoFallThrough s a s')
    (hs : machine.step s a = some s') : Inv s' := by
  have hright := (right_iff s a s' hI hs).mpr hC
  cases a with
  | post op =>
    cases hs
    refine ⟨hright, fun j hj => hI.done j ?_⟩
    have hj' : (s.ops ++ [op]).length ≤ j := hj
    rw [List.length_append] at hj'
    exact Nat.le_of_add_right_le hj'
  | execute i outcome h₁ h₂ =>
    obtain ⟨op, hop, hnew, rfl⟩ := step_execute hs
    refine ⟨hright.1, fun j hj => ?_⟩
    have hlt := (List.getElem?_eq_some_iff.mp hop).1
    have hne : j ≠ i := by
      have hj' : s.ops.length ≤ j := hj
      omega
    exact (Function.update_of_ne hne _ _).trans (hI.done j hj)

theorem inv_init (memory : ℕ → BitVec 64) (errno : ℤ) : Inv (init memory errno) where
  once := ⟨fun _ _ _ _ hd => (Option.some_ne_none _ hd.symm).elim, fun _ _ => rfl⟩
  done := fun _ _ => rfl

/-- Operations posted and executed in any order: each handler is invoked once, with what it
is for, exactly if no task goes on after a success. -/
theorem accept_once_iff (memory : ℕ → BitVec 64) (errno : ℤ) (as : List Action) :
    machine.Along Right (init memory errno) as ↔
      machine.Along NoFallThrough (init memory errno) as :=
  Machine.along_iff_along (A := fun _ _ _ => True)
    (fun s a s' hI _ hs => right_iff s a s' hI hs)
    (fun s a s' hI _ hC hs => inv_step s a s' hI hC hs) (inv_init memory errno)
    (Machine.along_true _ as)

/-- One connection: the handler gets the descriptor 7, and then `errno`, which is still 0. -/
theorem connection_reported_twice :
    ¬ machine.Along Right (init (fun _ => 16) 0)
      [.post ⟨1, some 0⟩, .execute 0 (.connected 7 16) ⟨0, false⟩ ⟨0, false⟩] := by
  intro h
  obtain ⟨-, h⟩ := h _ rfl
  obtain ⟨⟨honce, -⟩, -⟩ := h _ rfl
  have hcalled := honce.executed 0 ⟨1, some 0⟩ (.connected 7 16) rfl rfl
  exact absurd hcalled (by decide)

end BadIo.EpollAccept
