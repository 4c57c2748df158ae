import BadIo.Machine
import BadIo.Uring.Submit
import Mathlib.Data.List.Induction
import Mathlib.Logic.Function.Basic

namespace BadIo.AllocatorAware

/-- The storage that was handed out and has not come back, with its type and count. -/
abbrev Outstanding (Ty : Type*) := Pointer → Option (Ty × ℕ)

variable {Ty : Type*}

namespace Outstanding

def allocate (out : Outstanding Ty) (t : Ty) (p : Pointer) (n : ℕ) : Option (Outstanding Ty) :=
  if out p = none then some (Function.update out p (some (t, n))) else none

theorem allocate_eq_some {out out' : Outstanding Ty} {t : Ty} {p : Pointer} {n : ℕ} :
    out.allocate t p n = some out' ↔ out p = none ∧ Function.update out p (some (t, n)) = out' := by
  rw [allocate, Option.ite_none_right_eq_some, Option.some.injEq]

variable [DecidableEq Ty]

/-- Storage for `m` objects may come back as storage for `n` where `agree m n`. -/
def deallocate (agree : ℕ → ℕ → Bool) (out : Outstanding Ty) (t : Ty) (p : Pointer) (n : ℕ) :
    Option (Outstanding Ty) :=
  match out p with
  | some (u, m) => if u = t ∧ agree m n then some (Function.update out p none) else none
  | none => none

def event (agree : ℕ → ℕ → Bool) (out : Outstanding Ty) (e : Ty × Event) :
    Option (Outstanding Ty) :=
  match e.2 with
  | .allocate p n => out.allocate e.1 p n
  | .deallocate p n => out.deallocate agree e.1 p n
  | .construct _ => some out
  | .destroy _ => some out

variable {agree : ℕ → ℕ → Bool} {out out' : Outstanding Ty} {t : Ty} {p : Pointer} {m n : ℕ}

theorem deallocate_eq (h : out p = some (t, m)) : out.deallocate agree t p n =
    if agree m n = true then some (Function.update out p none) else none := by
  rw [deallocate, h]
  simp only [true_and]

theorem deallocate_eq_some (h : out.deallocate agree t p n = some out') :
    ∃ m, out p = some (t, m) ∧ agree m n = true ∧ Function.update out p none = out' := by
  unfold deallocate at h
  split at h
  · rename_i u m hp
    rw [Option.ite_none_right_eq_some, Option.some.injEq] at h
    obtain ⟨⟨rfl, hagree⟩, hout⟩ := h
    exact ⟨m, hp, hagree, hout⟩
  · cases h

end Outstanding

variable [DecidableEq Ty]

/-- What a ledger leaves outstanding, if each of its deallocations matches. -/
def settle (agree : ℕ → ℕ → Bool) (ledger : List (Ty × Event)) : Option (Outstanding Ty) :=
  ledger.foldlM (Outstanding.event agree) fun _ => none

theorem settle_append {agree : ℕ → ℕ → Bool} {ledger : List (Ty × Event)} {out : Outstanding Ty}
    (h : settle agree ledger = some out) (events : List (Ty × Event)) :
    settle agree (ledger ++ events) = events.foldlM (Outstanding.event agree) out := by
  unfold settle at *
  rw [List.foldlM_append, h]
  rfl

def Event.isAllocate (ptr : Pointer) : Event → Bool
  | .allocate p _ => p = ptr
  | _ => false

theorem event_counts {agree : ℕ → ℕ → Bool} {out out' : Outstanding Ty} {e : Ty × Event}
    (h : out.event agree e = some out') (p : Pointer) :
    ((if e.2.isAllocate p then 1 else 0) + if (out p).isSome then 1 else 0) =
      (if e.2.isDeallocate p then 1 else 0) + if (out' p).isSome then 1 else 0 := by
  obtain ⟨t, e⟩ := e
  cases e with
  | allocate q n =>
    obtain ⟨hq, rfl⟩ := Outstanding.allocate_eq_some.mp h
    by_cases hp : p = q
    · simp [Event.isAllocate, Event.isDeallocate, hp, hq]
    · simp [Event.isAllocate, Event.isDeallocate, hp, Ne.symm hp]
  | deallocate q n =>
    obtain ⟨m, hq, -, rfl⟩ := Outstanding.deallocate_eq_some h
    by_cases hp : p = q
    · simp [Event.isAllocate, Event.isDeallocate, hp, hq]
    · simp [Event.isAllocate, Event.isDeallocate, hp, Ne.symm hp]
  | construct q =>
    cases h
    rfl
  | destroy q =>
    cases h
    rfl

theorem settle_counts {agree : ℕ → ℕ → Bool} {ledger : List (Ty × Event)} {out : Outstanding Ty}
    (h : settle agree ledger = some out) (p : Pointer) :
    ledger.countP (fun e => e.2.isAllocate p) =
      ledger.countP (fun e => e.2.isDeallocate p) + if (out p).isSome then 1 else 0 := by
  induction ledger using List.reverseRecOn generalizing out with
  | nil =>
    cases h
    rfl
  | append_singleton ledger e ih =>
    unfold settle at h
    rw [List.foldlM_append] at h
    obtain ⟨mid, hmid, h⟩ := Option.bind_eq_some_iff.mp h
    change (mid.event agree e).bind some = _ at h
    rw [Option.bind_fun_some] at h
    have hevent := event_counts h p
    have hcount := ih hmid
    rw [List.countP_append, List.countP_append, List.countP_singleton, List.countP_singleton]
    omega

inductive Phase where
  | constructing
  | alive
  | destroying
  deriving DecidableEq

/-- `new_object` allocates, and then its constructor has returned or thrown; `delete_object`
destroys and then deallocates.  Other calls may come between. -/
inductive Stage where
  | allocate
  | constructed
  | thrown
  | destroy
  | deallocate
  deriving DecidableEq

namespace Stage

def before : Stage → Option Phase
  | allocate => none
  | constructed => some .constructing
  | thrown => some .constructing
  | destroy => some .alive
  | deallocate => some .destroying

def after : Stage → Option Phase
  | allocate => some .constructing
  | constructed => some .alive
  | thrown => none
  | destroy => some .destroying
  | deallocate => none

def events (ptr : Pointer) : Stage → Ledger
  | allocate => Ledger.allocateObject [] ptr
  | constructed => [.construct ptr]
  | thrown => Ledger.deallocateObject [] ptr
  | destroy => [.destroy ptr]
  | deallocate => Ledger.deallocateObject [] ptr

def deallocates : Stage → Bool
  | thrown => true
  | deallocate => true
  | _ => false

end Stage

structure Action (Ty : Type*) where
  stage : Stage
  type : Ty
  ptr : Pointer
  deriving DecidableEq

structure State (Ty : Type*) where
  ledger : List (Ty × Event)
  objects : Pointer → Option (Ty × Phase)

def Action.result (a : Action Ty) (s : State Ty) : State Ty where
  ledger := s.ledger ++ (a.stage.events a.ptr).map (Prod.mk a.type)
  objects := Function.update s.objects a.ptr (a.stage.after.map (Prod.mk a.type))

/-- An allocator hands out no storage that is in use. -/
def machine (Ty : Type*) [DecidableEq Ty] : Machine (State Ty) (Action Ty) where
  step s a :=
    if s.objects a.ptr = a.stage.before.map (Prod.mk a.type) then some (a.result s) else none

def init (Ty : Type*) : State Ty := ⟨[], fun _ => none⟩

theorem newObject_eq (l : Ledger) (ptr : Pointer) (throws : Bool) :
    (l.newObject ptr throws).1 = l ++ Stage.allocate.events ptr ++
      (if throws then Stage.thrown else Stage.constructed).events ptr := by
  cases throws <;> rfl

theorem deleteObject_eq (l : Ledger) (ptr : Pointer) :
    l.deleteObject ptr = l ++ Stage.destroy.events ptr ++ Stage.deallocate.events ptr := rfl

/-- Every deallocation so far matches an allocation that was outstanding, a call whose
constructor threw has given back its storage, and without objects nothing is outstanding. -/
structure Balanced (agree : ℕ → ℕ → Bool) (a : Action Ty) (s : State Ty) (out : Outstanding Ty) :
    Prop where
  settled : settle agree s.ledger = some out
  givenBack : a.stage = .thrown → out a.ptr = none
  empty : (∀ p, s.objects p = none) → ∀ p, out p = none

def LedgerRight (agree : ℕ → ℕ → Bool) (_ : State Ty) (a : Action Ty) (s' : State Ty) : Prop :=
  ∃ out, Balanced agree a s' out

def State.outstanding (s : State Ty) : Outstanding Ty := fun p => (s.objects p).map fun o => (o.1, 1)

def Inv (agree : ℕ → ℕ → Bool) (s : State Ty) : Prop :=
  settle agree s.ledger = some s.outstanding

variable {agree : ℕ → ℕ → Bool} {s s' : State Ty} {a : Action Ty}

theorem init_inv : Inv agree (init Ty) := rfl

theorem step_eq (h : (machine Ty).step s a = some s') :
    s.objects a.ptr = a.stage.before.map (Prod.mk a.type) ∧ s' = a.result s := by
  change (if _ then _ else _) = _ at h
  split at h
  · cases h
    exact ⟨‹_›, rfl⟩
  · cases h

omit [DecidableEq Ty] in
theorem outstanding_result : (a.result s).outstanding =
    Function.update s.outstanding a.ptr (a.stage.after.map fun _ => (a.type, 1)) := by
  funext p
  unfold State.outstanding Action.result
  dsimp only
  by_cases hp : p = a.ptr
  · rw [hp, Function.update_self, Function.update_self, Option.map_map]
    rfl
  · rw [Function.update_of_ne hp, Function.update_of_ne hp]

theorem settle_deallocate {out : Outstanding Ty} {t : Ty} {p : Pointer}
    (h : out p = some (t, 1)) :
    ((Ledger.deallocateObject [] p).map (Prod.mk t)).foldlM (Outstanding.event agree) out =
      if agree 1 0 = true then some (Function.update out p none) else none := by
  show (out.deallocate agree t p 0).bind some = _
  rw [Option.bind_fun_some, Outstanding.deallocate_eq h]

theorem settle_stage {out : Outstanding Ty} {stage : Stage} {t : Ty} {p : Pointer}
    (h : out p = stage.before.map fun _ => (t, 1)) :
    ((stage.events p).map (Prod.mk t)).foldlM (Outstanding.event agree) out =
      if agree 1 0 = true ∨ stage.deallocates = false then
        some (Function.update out p (stage.after.map fun _ => (t, 1))) else none := by
  cases stage with
  | allocate =>
    show (out.allocate t p 1).bind some = _
    rw [Option.bind_fun_some, if_pos (.inr rfl)]
    exact if_pos h
  | constructed =>
    rw [if_pos (.inr rfl)]
    exact congrArg some (Function.update_eq_self_iff.mpr h.symm).symm
  | destroy =>
    rw [if_pos (.inr rfl)]
    exact congrArg some (Function.update_eq_self_iff.mpr h.symm).symm
  | thrown =>
    simp only [Stage.deallocates, Bool.true_eq_false, or_false]
    exact settle_deallocate h
  | deallocate =>
    simp only [Stage.deallocates, Bool.true_eq_false, or_false]
    exact settle_deallocate h

theorem settle_step (hI : Inv agree s) (h : (machine Ty).step s a = some s') :
    settle agree s'.ledger =
      if agree 1 0 = true ∨ a.stage.deallocates = false then some s'.outstanding else none := by
  obtain ⟨hbefore, rfl⟩ := step_eq h
  have hout : s.outstanding a.ptr = a.stage.before.map fun _ => (a.type, 1) := by
    rw [State.outstanding, hbefore, Option.map_map]
    rfl
  rw [outstanding_result, ← settle_stage hout]
  exact settle_append hI _

theorem balanced_of_inv (h : (machine Ty).step s a = some s') (hI' : Inv agree s') :
    Balanced agree a s' s'.outstanding := by
  obtain ⟨-, rfl⟩ := step_eq h
  refine ⟨hI', fun hthrown => ?_, fun hnone p => ?_⟩
  · rw [outstanding_result, Function.update_self, hthrown]
    rfl
  · rw [State.outstanding, hnone]
    rfl

theorem step_right_iff (hI : Inv agree s) (h : (machine Ty).step s a = some s') :
    LedgerRight agree s a s' ↔ agree 1 0 = true ∨ a.stage.deallocates = false := by
  have hsettle := settle_step hI h
  constructor
  · rintro ⟨out, hout⟩
    by_contra hno
    rw [if_neg hno, hout.settled] at hsettle
    cases hsettle
  · intro hyes
    rw [if_pos hyes] at hsettle
    exact ⟨_, balanced_of_inv h hsettle⟩

theorem along_right_iff (as : List (Action Ty)) :
    (machine Ty).Along (LedgerRight agree) (init Ty) as ↔
      (machine Ty).Along (fun _ a _ => agree 1 0 = true ∨ a.stage.deallocates = false)
        (init Ty) as := by
  apply Machine.along_iff_along (I := Inv agree) (A := fun _ _ _ => True)
  · exact fun s a s' hI _ h => step_right_iff hI h
  · intro s a s' hI _ hyes h
    exact (settle_step hI h).trans (if_pos hyes)
  · exact init_inv
  · exact Machine.along_true _ _

def sameCount (m n : ℕ) : Bool := m = n

/-- For all runs: the ledger is right throughout exactly if no stage deallocates. -/
theorem ledger_right_iff (as : List (Action Ty)) :
    (machine Ty).Along (LedgerRight sameCount) (init Ty) as ↔
      (machine Ty).Along (fun _ a _ => a.stage.deallocates = false) (init Ty) as := by
  have hcount : ∀ b : Bool, (sameCount 1 0 = true ∨ b = false) ↔ b = false := by decide
  rw [along_right_iff]
  simp only [hcount]

/-- An object that is created and deleted. -/
theorem ledger_wrong : ¬ (machine Unit).Along (LedgerRight sameCount) (init Unit)
    [⟨.allocate, (), 100⟩, ⟨.constructed, (), 100⟩, ⟨.destroy, (), 100⟩,
      ⟨.deallocate, (), 100⟩] := by
  rw [along_right_iff]
  intro h
  exact absurd (h.nth 3 rfl rfl rfl) (by decide)

/-- But for the counts the ledger is always right. -/
theorem pointers_right (as : List (Action Ty)) :
    (machine Ty).Along (LedgerRight fun _ _ => true) (init Ty) as := by
  rw [along_right_iff]
  simp only [true_or]
  exact Machine.along_true _ _

inductive Call (Ty : Type*) where
  | newObject (type : Ty) (ptr : Pointer) (throws : Bool)
  | deleteObject (type : Ty) (ptr : Pointer)

def Call.actions : Call Ty → List (Action Ty)
  | .newObject t p throws =>
    [⟨.allocate, t, p⟩, ⟨if throws then .thrown else .constructed, t, p⟩]
  | .deleteObject t p => [⟨.destroy, t, p⟩, ⟨.deallocate, t, p⟩]

def State.ofType (s : State Ty) (t : Ty) : Ledger :=
  s.ledger.filterMap fun e => if e.1 = t then some e.2 else none

theorem ofType_result (s : State Ty) (stage : Stage) (t : Ty) (p : Pointer) :
    (Action.result ⟨stage, t, p⟩ s).ofType t = s.ofType t ++ stage.events p := by
  unfold State.ofType Action.result
  rw [List.filterMap_append, List.filterMap_map]
  apply congrArg (_ ++ ·)
  show List.filterMap (fun e => if t = t then some e else none) _ = _
  simp only [if_true, List.filterMap_some]

omit [DecidableEq Ty] in
theorem objects_result (s : State Ty) (a : Action Ty) :
    (a.result s).objects a.ptr = a.stage.after.map (Prod.mk a.type) := Function.update_self ..

theorem step_of_before (h : s.objects a.ptr = a.stage.before.map (Prod.mk a.type)) :
    (machine Ty).step s a = some (a.result s) := if_pos h

theorem run_newObject (t : Ty) {p : Pointer} (h : s.objects p = none) (throws : Bool) :
    ∃ s', (machine Ty).run s (Call.newObject t p throws).actions = some s' ∧
      s'.ofType t = ((s.ofType t).newObject p throws).1 ∧
      s'.objects p = if throws then none else some (t, .alive) := by
  let a : Action Ty := ⟨.allocate, t, p⟩
  let b : Action Ty := ⟨if throws then .thrown else .constructed, t, p⟩
  have hbefore : (a.result s).objects p = b.stage.before.map (Prod.mk t) := by
    rw [objects_result s a]
    cases throws <;> rfl
  refine ⟨b.result (a.result s), ?_, ?_, ?_⟩
  · apply (machine Ty).run_cons_eq_some.mpr
    exact ⟨_, step_of_before h, (machine Ty).run_cons_eq_some.mpr ⟨_, step_of_before hbefore, rfl⟩⟩
  · rw [newObject_eq, ofType_result, ofType_result]
  · rw [objects_result _ b]
    cases throws <;> rfl

theorem run_deleteObject {t : Ty} {p : Pointer} (h : s.objects p = some (t, .alive)) :
    ∃ s', (machine Ty).run s (Call.deleteObject t p).actions = some s' ∧
      s'.ofType t = (s.ofType t).deleteObject p := by
  let a : Action Ty := ⟨.destroy, t, p⟩
  let b : Action Ty := ⟨.deallocate, t, p⟩
  refine ⟨b.result (a.result s), ?_, ?_⟩
  · apply (machine Ty).run_cons_eq_some.mpr
    refine ⟨_, step_of_before h, (machine Ty).run_cons_eq_some.mpr ⟨_, step_of_before ?_, rfl⟩⟩
    exact objects_result s a
  · rw [deleteObject_eq, ofType_result, ofType_result]

open Uring in
theorem submit_calls {R : Type*} {ctx : Context} {u u' : Uring.State R} {request : R}
    {completion : Pointer} {throws : Bool} {results : List ℤ}
    {r : Option (Native.Result Pointer)}
    (h : submit ctx u request completion throws results = .returned (u', r)) {t : Ty}
    (hledger : s.ofType t = u.ledger) (hfree : s.objects completion = none) :
    ∃ (calls : List (Call Ty)) (s' : State Ty),
      (machine Ty).run s (calls.flatMap Call.actions) = some s' ∧ s'.ofType t = u'.ledger := by
  obtain ⟨s₁, hrun, hledger₁, hobjects⟩ := run_newObject t hfree throws
  rw [hledger] at hledger₁
  cases throws with
  | true =>
    cases h
    exact ⟨[.newObject t completion true], s₁, hrun, hledger₁⟩
  | false =>
    obtain ⟨ring, result, -, hr⟩ := submit_constructed h
    rcases hr with ⟨-, rfl, -⟩ | ⟨-, rfl, -⟩
    · obtain ⟨s₂, hrun₂, hledger₂⟩ := run_deleteObject hobjects
      refine ⟨[.newObject t completion false, .deleteObject t completion], s₂, ?_, ?_⟩
      · show (machine Ty).run s ((Call.newObject t completion false).actions ++
          (Call.deleteObject t completion).actions) = _
        rw [Machine.run_append, hrun, Option.bind_some, hrun₂]
      · rw [hledger₂, hledger₁]
    · exact ⟨[.newObject t completion false], s₁, hrun, hledger₁⟩

end BadIo.AllocatorAware
