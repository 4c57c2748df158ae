import BadIo.Semaphore.Basic

namespace BadIo.Semaphore

variable {F : Type*}

/-- The calls of `release` add at most one permit. -/
def Act.OneAtATime (a : Act F) : Prop := ∀ update, a = .release update → update ≤ 1

def Local.NotDraining : Local F → Prop
  | .draining _ _ => False
  | .handing _ _ _ => False
  | _ => True

theorem tryLoop_notDraining (old : ℤ) : (tryLoop old : Local F).NotDraining := by
  unfold tryLoop
  split <;> trivial

/-- No completion leaves the queue, and the executor is handed a completion by the call that
it was given to, if by any. -/
structure Unwoken (g : Shared F) (l : Local F) (g' : Shared F) : Prop where
  functions : g.functions <+: g'.functions
  posted : g'.posted = g.posted ∨ ∃ f, l = .posting f ∧ g'.posted = g.posted ++ [some f]

variable [DecidableEq F] {ndebug : Bool} {g g' : Shared F} {l l' : Local F} {a : Act F}

theorem trans_unwoken (h : Trans ndebug g l a g' l') (hl : l.NotDraining) (ha : a.OneAtATime) :
    Unwoken g l g' ∧ l'.NotDraining := by
  cases h with
  | post f => exact ⟨⟨List.prefix_rfl, .inr ⟨f, rfl, rfl⟩⟩, trivial⟩
  | enqueue f => exact ⟨⟨List.prefix_append _ _, .inl rfl⟩, trivial⟩
  | load | reload => exact ⟨⟨List.prefix_rfl, .inl rfl⟩, tryLoop_notDraining _⟩
  | release update h =>
    -- the counter was not below zero, so that nobody is waiting
    have hu := ha update rfl
    refine ⟨⟨List.prefix_rfl, .inl rfl⟩, ?_⟩
    rw [releaseLoop, if_neg (by omega)]
    trivial
  | dequeue | miss | abort | hand => exact absurd hl id
  | acquire | wait | exchange | raise => exact ⟨⟨List.prefix_rfl, .inl rfl⟩, trivial⟩

variable {ι : Type*} [DecidableEq ι]

/-- Whatever any number of threads call and however they interleave: as long as permits come
back one at a time, a completion that has been enqueued stays in the queue, and all that the
executor is handed are completions whose own call of `async_acquire` found a permit. -/
theorem waiters_never_woken (ndebug : Bool) (desired : ℤ) {acts : List (ι × Act F)}
    (hacts : ∀ a ∈ acts, a.2.OneAtATime) :
    (machine ι F ndebug).Along
      (fun s a s' => Unwoken s.shared (s.threads a.1) s'.shared) (initial desired) acts := by
  refine Machine.along_of_along (I := fun s => ∀ i, (s.threads i).NotDraining) ?_
    (fun _ => trivial) (Machine.along_of_forall hacts)
  intro s a s' hs ha h
  obtain ⟨g, l, hstep, rfl⟩ := interleave_step.mp h
  obtain ⟨hunwoken, hl⟩ := trans_unwoken (step_trans hstep) (hs a.1) ha
  exact ⟨forall_update hs hl, hunwoken⟩

/-- Of two threads that want the one permit the second one has to wait; it is not woken when the
first one gives the permit back, and still waits when there is a free one. -/
def mutexRun : List (Bool × Act ℕ) :=
  [(false, .asyncAcquire 5), (true, .asyncAcquire 6), (true, .enqueue), (false, .post),
    (false, .release 1), (true, .release 1)]

theorem waiters_never_woken_mutex : (machine Bool ℕ false).Along
      (fun s a s' => Unwoken s.shared (s.threads a.1) s'.shared) (initial 1) mutexRun ∧
    ∃ s, (machine Bool ℕ false).run (initial 1) mutexRun = some s ∧
      s.shared.functions = [6] ∧ s.shared.count = 1 := by
  refine ⟨waiters_never_woken false 1 ?_, _, rfl, rfl, rfl⟩
  intro a ha update hu
  simp only [mutexRun, List.mem_cons, List.not_mem_nil, or_false] at ha
  rcases ha with rfl | rfl | rfl | rfl | rfl | rfl <;> cases hu <;> decide

end BadIo.Semaphore
