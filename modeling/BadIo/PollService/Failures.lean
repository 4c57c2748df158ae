import BadIo.PollService.Pairing

namespace BadIo.PollService

/-- Where a call of `async_poll_add` can throw once it has found the descriptor new. -/
inductive Point where
  | firstInsert
  | construct
  | secondInsert
  deriving DecidableEq

/-- A call, and where it fails if it gets that far. -/
structure Attempt (C : Type*) where
  fd : ℤ
  events : BitVec 16
  f : C
  fails : Option Point

/-- `m_fds` and `m_completions`; nothing says that they are equally long. -/
structure Vectors (C : Type*) where
  fds : List PollFd
  completions : List (Option C)

structure Tried (C : Type*) where
  vectors : Vectors C
  threw : Bool

variable {C : Type*}

/-- `none`: the completion is inserted outside of its vector.  The callable is constructed
as an argument of the second insertion, so after the first. -/
def Vectors.asyncPollAdd (v : Vectors C) (a : Attempt C) : Option (Tried C) :=
  let it := BadIo.lowerBound PollFd.fd v.fds a.fd
  if (v.fds[it]?).map PollFd.fd = some a.fd then some ⟨v, true⟩
  else if a.fails = some .firstInsert then some ⟨v, true⟩
  else
    let index := v.fds.length - it
    let inserted : Vectors C := { v with fds := v.fds.insertIdx it ⟨a.fd, a.events, 0⟩ }
    if v.completions.length < index then none
    else if a.fails = some .construct ∨ a.fails = some .secondInsert then some ⟨inserted, true⟩
    else some ⟨{ inserted with completions := v.completions.insertIdx index (some a.f) }, false⟩

def Vectors.Polled (v : Vectors C) (fd : ℤ) : Prop := ∃ e ∈ v.fds, e.fd = fd

/-- If the call throws, the vectors are as they were, so they are equally long, and unless
the descriptor is polled a further call succeeds. -/
structure Atomic (v : Vectors C) (a : Attempt C) : Prop where
  defined : ∃ r, v.asyncPollAdd a = some r
  unchanged : ∀ v', v.asyncPollAdd a = some ⟨v', true⟩ → v' = v
  aligned : ∀ v', v.asyncPollAdd a = some ⟨v', true⟩ → v'.completions.length = v'.fds.length
  again : ∀ v', v.asyncPollAdd a = some ⟨v', true⟩ → ¬ v.Polled a.fd →
    ∃ v'', v'.asyncPollAdd { a with fails := none } = some ⟨v'', false⟩

def attempts (C : Type*) : Machine (Option (Vectors C)) (Attempt C) where
  step s a := s.map fun v => (v.asyncPollAdd a).map Tried.vectors

def Kept : Option (Vectors C) → Attempt C → Option (Vectors C) → Prop
  | some v, a, _ => Atomic v a
  | none, _, _ => True

/-- No new descriptor's call fails after the first insertion. -/
def NotHalfway : Option (Vectors C) → Attempt C → Option (Vectors C) → Prop
  | some v, a, _ => a.fails = some .construct ∨ a.fails = some .secondInsert → v.Polled a.fd
  | none, _, _ => True

structure Wellformed (v : Vectors C) : Prop where
  sorted : SortedBy PollFd.fd v.fds
  aligned : v.completions.length = v.fds.length

variable {v v' : Vectors C} {a : Attempt C}

def Vectors.withFd (v : Vectors C) (a : Attempt C) : Vectors C :=
  { v with fds := v.fds.insertIdx (BadIo.lowerBound PollFd.fd v.fds a.fd) ⟨a.fd, a.events, 0⟩ }

def Vectors.withBoth (v : Vectors C) (a : Attempt C) : Vectors C :=
  { v.withFd a with
    completions := v.completions.insertIdx
      (v.fds.length - BadIo.lowerBound PollFd.fd v.fds a.fd) (some a.f) }

theorem attempt_polled (h : Wellformed v) (hp : v.Polled a.fd) :
    v.asyncPollAdd a = some ⟨v, true⟩ := if_pos (h.sorted.found_iff.mpr hp)

theorem attempt_new (h : Wellformed v) (hp : ¬ v.Polled a.fd) :
    v.asyncPollAdd a = some (match a.fails with
      | some .firstInsert => ⟨v, true⟩
      | some .construct => ⟨v.withFd a, true⟩
      | some .secondInsert => ⟨v.withFd a, true⟩
      | none => ⟨v.withBoth a, false⟩) := by
  have hroom : ¬ v.completions.length <
      v.fds.length - BadIo.lowerBound PollFd.fd v.fds a.fd := by
    rw [h.aligned]
    omega
  unfold Vectors.asyncPollAdd
  rw [if_neg fun hfound => hp (h.sorted.found_iff.mp hfound)]
  dsimp only
  rw [if_neg hroom]
  cases hf : a.fails with
  | none => rfl
  | some point =>
    cases point with
    | firstInsert => rfl
    | construct => rfl
    | secondInsert => rfl

theorem length_withFd (v : Vectors C) (a : Attempt C) :
    (v.withFd a).fds.length = v.fds.length + 1 := by
  have hlb : BadIo.lowerBound PollFd.fd v.fds a.fd ≤ v.fds.length := lowerBound_le v.fds a.fd
  rw [Vectors.withFd, List.length_insertIdx, if_pos hlb]

theorem Wellformed.withBoth (h : Wellformed v) (hp : ¬ v.Polled a.fd) :
    Wellformed (v.withBoth a) where
  sorted := h.sorted.insertIdx (a := ⟨a.fd, a.events, 0⟩) fun hfound =>
    hp (h.sorted.found_iff.mp hfound)
  aligned := by
    have hfds : (v.withBoth a).fds.length = v.fds.length + 1 := length_withFd v a
    have hindex : v.fds.length - BadIo.lowerBound PollFd.fd v.fds a.fd ≤ v.completions.length := by
      rw [h.aligned]
      omega
    rw [hfds, Vectors.withBoth, List.length_insertIdx, if_pos hindex, h.aligned]

theorem halfway (h : Wellformed v) (hp : ¬ v.Polled a.fd)
    (hf : a.fails = some .construct ∨ a.fails = some .secondInsert) :
    v.asyncPollAdd a = some ⟨v.withFd a, true⟩ ∧
      (v.withFd a).fds.length = (v.withFd a).completions.length + 1 ∧
      ∀ b : Attempt C, b.fd = a.fd → (v.withFd a).asyncPollAdd b = some ⟨v.withFd a, true⟩ := by
  -- a call that fails half-way leaves a descriptor without a completion, which cannot be added
  -- again
  have hlb : BadIo.lowerBound PollFd.fd v.fds a.fd ≤ v.fds.length := lowerBound_le v.fds a.fd
  refine ⟨?_, ?_, fun b hb => ?_⟩
  · rw [attempt_new h hp]
    rcases hf with hf | hf
    · rw [hf]
    · rw [hf]
  · rw [length_withFd]
    exact congrArg (· + 1) h.aligned.symm
  · have hsorted : SortedBy PollFd.fd (v.withFd a).fds := (h.withBoth hp).sorted
    apply if_pos
    rw [hsorted.found_iff, hb]
    exact ⟨_, (List.mem_insertIdx hlb).mpr (.inl rfl), rfl⟩

theorem attempt_cases (h : Wellformed v)
    (hC : a.fails = some .construct ∨ a.fails = some .secondInsert → v.Polled a.fd) :
    v.asyncPollAdd a = some ⟨v, true⟩ ∨
      ¬ v.Polled a.fd ∧ v.asyncPollAdd a = some ⟨v.withBoth a, false⟩ := by
  by_cases hp : v.Polled a.fd
  · exact .inl (attempt_polled h hp)
  · rw [attempt_new h hp]
    cases hf : a.fails with
    | none => exact .inr ⟨hp, rfl⟩
    | some point =>
      cases point with
      | firstInsert => exact .inl rfl
      | construct => exact (hp (hC (.inl hf))).elim
      | secondInsert => exact (hp (hC (.inr hf))).elim

theorem Atomic.of_call (h : Wellformed v) {r : Tried C} (hr : v.asyncPollAdd a = some r)
    (hsame : r.threw = true → r.vectors = v) : Atomic v a := by
  have heq : ∀ v', v.asyncPollAdd a = some ⟨v', true⟩ → v' = v := by
    intro v' hv
    obtain rfl := Option.some.inj (hr.symm.trans hv)
    exact hsame rfl
  refine ⟨⟨r, hr⟩, heq, fun v' hv => ?_, fun v' hv hp => ⟨v.withBoth a, ?_⟩⟩
  · rw [heq v' hv]
    exact h.aligned
  · rw [heq v' hv]
    exact attempt_new (a := { a with fails := none }) h hp

theorem atomic_iff (h : Wellformed v) :
    Atomic v a ↔ (a.fails = some .construct ∨ a.fails = some .secondInsert → v.Polled a.fd) := by
  constructor
  · intro ha hf
    by_contra hp
    have hlen := congrArg (fun u => u.fds.length) (ha.unchanged _ (halfway h hp hf).1)
    have hsucc := length_withFd v a
    omega
  · intro hC
    rcases attempt_cases h hC with hcall | ⟨-, hcall⟩
    · exact .of_call h hcall fun _ => rfl
    · exact .of_call h hcall fun hthrew => (Bool.false_ne_true hthrew).elim

theorem asyncPollAdd_wellformed (h : Wellformed v)
    (hC : a.fails = some .construct ∨ a.fails = some .secondInsert → v.Polled a.fd) :
    ∃ r, v.asyncPollAdd a = some r ∧ Wellformed r.vectors := by
  rcases attempt_cases h hC with hcall | ⟨hp, hcall⟩
  · exact ⟨_, hcall, h⟩
  · exact ⟨_, hcall, h.withBoth hp⟩

def StateInv : Option (Vectors C) → Prop
  | some v => Wellformed v
  | none => True

theorem kept_iff (s : Option (Vectors C)) (a : Attempt C) (s' : Option (Vectors C))
    (h : StateInv s) : Kept s a s' ↔ NotHalfway s a s' := by
  cases s with
  | none => exact Iff.rfl
  | some v => exact atomic_iff h

theorem stateInv_step (s : Option (Vectors C)) (a : Attempt C) (s' : Option (Vectors C))
    (h : StateInv s) (hC : NotHalfway s a s') (hs : (attempts C).step s a = some s') :
    StateInv s' := by
  cases s with
  | none => cases hs
  | some v =>
    obtain ⟨r, hr, hwf⟩ := asyncPollAdd_wellformed h hC
    have hs' : some ((v.asyncPollAdd a).map Tried.vectors) = some s' := hs
    rw [hr] at hs'
    cases hs'
    exact hwf

/-- In a run of calls on a new service each of them is atomic exactly if none fails
half-way. -/
theorem add_atomic_iff (as : List (Attempt C)) :
    (attempts C).Along Kept (some ⟨[], []⟩) as ↔
      (attempts C).Along NotHalfway (some ⟨[], []⟩) as := by
  have hinit : StateInv (some (⟨[], []⟩ : Vectors C)) := ⟨List.Pairwise.nil, rfl⟩
  exact Machine.along_iff_along (A := fun _ _ _ => True)
    (fun s a s' hI _ _ => kept_iff s a s' hI)
    (fun s a s' hI _ hC hs => stateInv_step s a s' hI hC hs) hinit (Machine.along_true _ as)

/-- The callable of the first call cannot be constructed. -/
theorem add_leaves_descriptor :
    ¬ (attempts ℕ).Along Kept (some ⟨[], []⟩) [⟨4, 1, 70, some .construct⟩] := by
  intro h
  obtain ⟨ha, -⟩ := h _ rfl
  have hsame := ha.unchanged ⟨[⟨4, 1, 0⟩], []⟩ rfl
  cases hsame

def Service.vectors (s : Service C) : Vectors C := ⟨s.fds, s.completions⟩

theorem Service.wellformed (s : Service C) : Wellformed s.vectors := ⟨s.sorted, s.aligned⟩

theorem attempt_vectors (s : Service C) (fd : ℤ) (events : BitVec 16) (f : C) :
    s.vectors.asyncPollAdd ⟨fd, events, f, none⟩ =
      some (match s.asyncPollAdd fd events f with
        | none => ⟨s.vectors, true⟩
        | some s' => ⟨s'.vectors, false⟩) := by
  let a : Attempt C := ⟨fd, events, f, none⟩
  by_cases hp : Polled s fd
  · rw [asyncPollAdd_polled hp]
    exact attempt_polled (a := a) s.wellformed hp
  · have hadd : ∃ s', s.asyncPollAdd fd events f = some s' ∧
        s'.vectors = s.vectors.withBoth a :=
      ⟨_, dif_neg fun hfound => hp (s.sorted.found_iff.mp hfound), rfl⟩
    obtain ⟨s', hs', hvectors⟩ := hadd
    rw [hs', attempt_new (a := a) s.wellformed hp]
    show some (⟨s.vectors.withBoth a, false⟩ : Tried C) = some ⟨s'.vectors, false⟩
    rw [hvectors]

end BadIo.PollService
