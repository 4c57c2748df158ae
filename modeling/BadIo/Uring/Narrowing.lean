import BadIo.Uring.WaitMany

namespace BadIo.Uring.WaitMany

open Native

variable {k : ℕ} {C : Type*}

def narrowedBy (ctx : Context) (span : List Buffer) (seen : ℕ) : List Buffer :=
  match ctx with
  | .unsynchronized => span.take seen
  | .synchronized => span

/-- A call in context `ctx` found `m` entries, at position `n` of the stream, and took what
its span has room for. -/
structure Call.Took (ctx : Context) (n : ℕ) (stream : List C) (c : Call C) (m : ℕ) : Prop where
  available : c.available = some m
  room : n + m ≤ stream.length
  writes : c.writes = (c.span.take (min m c.span.length)).zip
    ((stream.drop n).take (min m c.span.length))
  narrowed : c.narrowed = narrowedBy ctx c.span (min m c.span.length)

/-- A call of the unsynchronized and one of the synchronized context from the state `s`,
both of them successful, given the same span and with the same entries published when they
look for the last time.  Apart from that the kernel may act differently in `s₁` and `s₂`. -/
structure SameCall (s s₁ s₂ : State k C) (c₁ c₂ : Call C) : Prop where
  run₁ : (machine .unsynchronized k C).Reachable s s₁
  run₂ : (machine .synchronized k C).Reachable s s₂
  calls₁ : s₁.calls = s.calls ++ [c₁]
  calls₂ : s₂.calls = s.calls ++ [c₂]
  success₁ : c₁.report.error = 0
  success₂ : c₂.report.error = 0
  span : c₁.span = c₂.span
  available : c₁.available = c₂.available
  stream : ∃ stream, s₁.published <+: stream ∧ s₂.published <+: stream

/-- The same entries are written to the same buffers, and each caller's span is narrowed to
the buffers written. -/
structure Alike (c₁ c₂ : Call C) : Prop where
  writes : c₁.writes = c₂.writes
  narrowed₁ : c₁.narrowed = c₁.writes.map Prod.fst
  narrowed₂ : c₂.narrowed = c₂.writes.map Prod.fst

def TakingPhase (s : State k C) : Phase → Prop
  | .idle => True
  | .aborted => True
  | .submitting _ => s.writes = []
  | .waiting _ => s.writes = []
  | .walking f head seen => head = s.ring.head + BitVec.ofNat 32 seen ∧ Chunk s f seen
  | .advancing f seen available =>
    seen = min available f.span.length ∧ consumed s + available ≤ s.published.length ∧
      Chunk s f seen

structure Taking (s : State k C) : Prop where
  represents : s.ring.Represents s.published (consumed s)
  phase : TakingPhase s s.phase

variable {s s' : State k C} {f : Frame} {seen : ℕ}

theorem Taking.publish (hk : k < 32) (h : Taking s) {cqe : C} {ring : RingBuffer 32 k C}
    (hp : s.ring.publish cqe = some ring) :
    Taking { s with ring, published := s.published ++ [cqe] } := by
  have hhead := RingBuffer.publish_head hp
  have hall : ∀ p, TakingPhase s p →
      TakingPhase { s with ring, published := s.published ++ [cqe] } p := by
    intro p hp
    cases p with
    | idle => trivial
    | aborted => trivial
    | submitting f => exact hp
    | waiting f => exact hp
    | walking f head seen =>
      refine ⟨?_, hp.2.publish cqe ring⟩
      show head = ring.head + _
      rw [hhead]
      exact hp.1
    | advancing f seen available =>
      refine ⟨hp.1, ?_, hp.2.2.publish cqe ring⟩
      show consumed s + available ≤ (s.published ++ [cqe]).length
      rw [List.length_append]
      exact Nat.le_add_right_of_le hp.2.1
  exact ⟨h.represents.publish hk hp, hall s.phase h.phase⟩

theorem consumed_leave (s : State k C) (f : Frame) (narrowed : List Buffer) (report : Report)
    (available : Option ℕ) :
    consumed (s.leave f narrowed report available) = consumed s + s.writes.length := by
  simp [consumed, State.leave]

theorem Taking.copy (hk : k < 32) (h : Taking s) {head : BitVec 32} {buffer : Buffer}
    (hp : s.phase = .walking f head seen) (hmore : head ≠ s.ring.tail)
    (hbuffer : f.span[seen]? = some buffer) :
    Taking { s with
      buffers := Function.update s.buffers buffer (s.ring.entry head)
      writes := s.writes ++ [(buffer, s.ring.entry head)]
      phase := .walking f (head + 1) (seen + 1) } := by
  have hphase := h.phase
  rw [hp] at hphase
  obtain ⟨rfl, hc⟩ := hphase
  exact ⟨h.represents, walked_succ _ seen, hc.copy hk h.represents hmore hbuffer _ _⟩

theorem Taking.stop (hk : k < 32) (h : Taking s) {head : BitVec 32}
    (hp : s.phase = .walking f head seen) (hstop : head = s.ring.tail ∨ seen = f.span.length) :
    Taking { s with phase := .advancing f seen s.ring.available } := by
  have hphase := h.phase
  rw [hp] at hphase
  obtain ⟨rfl, hc⟩ := hphase
  refine ⟨h.represents, hc.stop hk h.represents hstop, ?_, ⟨hc.span, hc.room, hc.writes⟩⟩
  show consumed s + s.ring.available ≤ s.published.length
  have havail := h.represents.available hk
  have hconsumed := h.represents.consumed
  omega

theorem Taking.writes (h : Taking s) (hp : s.phase = .submitting f ∨ s.phase = .waiting f) :
    s.writes = [] := by
  have hphase := h.phase
  rcases hp with hp | hp
  · rw [hp] at hphase
    exact hphase
  · rw [hp] at hphase
    exact hphase

theorem Taking.trans (hk : k < 32) (h : Taking s) {a : Action C} (ht : Trans s a s') :
    Taking s' := by
  have hphase := h.phase
  cases ht with
  | publish cqe ring hp => exact h.publish hk hp
  | enter span => exact ⟨h.represents, rfl⟩
  | again error => exact h
  | abort error => exact ⟨h.represents, trivial⟩
  | wait f error hp =>
    rw [hp] at hphase
    exact ⟨h.represents, hphase⟩
  | fail f a report hp herror =>
    refine ⟨?_, trivial⟩
    rw [consumed_leave, h.writes hp]
    exact h.represents
  | startWalk f a hp =>
    exact ⟨h.represents, (BitVec.add_zero _).symm, Nat.zero_le _, h.represents.consumed,
      h.writes hp⟩
  | stop f head seen hp hstop => exact h.stop hk hp hstop
  | copy f head seen buffer hp hmore hbuffer => exact h.copy hk hp hmore hbuffer
  | advance f seen available narrowed report hp herror =>
    rw [hp] at hphase
    refine ⟨?_, trivial⟩
    rw [consumed_leave]
    exact hphase.2.2.advance h.represents

theorem walk_calls {head : BitVec 32} (h : s.walk f head seen = some s') : s'.calls = s.calls := by
  unfold State.walk at h
  split at h
  · cases h
    rfl
  split at h
  · cases h
    rfl
  · obtain ⟨buffer, -, rfl⟩ := Option.map_eq_some_iff.mp h
    rfl

/-- A step adds at most one call, and a failed one unless it gave entries back. -/
theorem step_calls {ctx : Context} {a : Action C} (h : step ctx s a = some s') :
    s'.calls = s.calls ∨
      (∃ f report, report.error ≠ 0 ∧ s' = s.leave f f.span report none) ∨
      ∃ f seen available report, s.phase = .advancing f seen available ∧
        s' = (s.advanceRing seen).leave f (narrowedBy ctx f.span seen) report (some available) := by
  cases a with
  | publish cqe =>
    obtain ⟨ring, -, rfl⟩ := Option.map_eq_some_iff.mp h
    exact .inl rfl
  | enter span =>
    simp only [step] at h
    split at h
    · cases h
      exact .inl rfl
    · cases h
  | submitted error =>
    simp only [step] at h
    split at h
    · cases h
      unfold Unsynchronized.submitted
      split
      · rename_i he
        exact .inr (.inl ⟨_, .sized (.fromError (-error)), neg_error he, rfl⟩)
      · exact .inl rfl
    · cases h
      unfold Synchronized.submitted
      split
      · exact .inl rfl
      · exact .inl rfl
      split
      · rename_i r hturn herr
        -- no error leaves the flush as one that `has_error` accepts
        obtain ⟨e, he, rfl⟩ := turn_leave hturn
        rw [ResultVoid.hasError_fromError he] at herr
        exact (Bool.false_ne_true herr).elim
      · exact .inl rfl
    · cases h
  | waited error =>
    simp only [step] at h
    split at h
    · cases h
      unfold Synchronized.waited
      split
      · rename_i he
        exact .inr (.inl ⟨_, .void (.fromError (-error)), neg_error he, rfl⟩)
      · exact .inl rfl
    · cases h
  | walk =>
    simp only [step] at h
    split at h
    · exact .inl (walk_calls h)
    · cases h
  | advance =>
    simp only [step] at h
    split at h
    · rename_i f seen available hp
      cases h
      exact .inr (.inr ⟨f, seen, available, _, hp, rfl⟩)
    · rename_i f seen available hp
      cases h
      exact .inr (.inr ⟨f, seen, available, _, hp, rfl⟩)
    · cases h

theorem step_published {ctx : Context} {a : Action C} (h : step ctx s a = some s') :
    s.published <+: s'.published := by
  cases step_trans h with
  | publish cqe ring hp => exact List.prefix_append _ _
  | _ => exact List.prefix_rfl

theorem Call.Took.mono {ctx : Context} {n m : ℕ} {stream stream' : List C} {c : Call C}
    (h : c.Took ctx n stream m) (hs : stream <+: stream') : c.Took ctx n stream' m := by
  have hroom := h.room
  obtain ⟨rest, rfl⟩ := hs
  refine ⟨h.available, ?_, ?_, h.narrowed⟩
  · rw [List.length_append]
    exact Nat.le_add_right_of_le hroom
  · rw [RingBuffer.take_drop_append rest (by omega)]
    exact h.writes

structure Since (ctx : Context) (s₀ s : State k C) : Prop where
  taking : Taking s
  calls : s₀.calls <+: s.calls
  first : ∀ c rest, s.calls = s₀.calls ++ c :: rest → c.report.error = 0 →
    ∃ m, c.Took ctx (consumed s₀) s.published m

theorem Since.leave {ctx : Context} {s₀ : State k C} (h : Since ctx s₀ s) {c : Call C}
    (hcalls : s'.calls = s.calls ++ [c]) (hpub : s.published <+: s'.published)
    (htaking : Taking s')
    (hnew : c.report.error = 0 → ∃ m, c.Took ctx (consumed s) s'.published m) :
    Since ctx s₀ s' := by
  obtain ⟨mid, hmid⟩ := h.calls
  refine ⟨htaking, ⟨mid ++ [c], ?_⟩, fun d rest hd hsuccess => ?_⟩
  · rw [hcalls, ← hmid, List.append_assoc]
  rw [hcalls, ← hmid, List.append_assoc, List.append_cancel_left_eq] at hd
  cases mid with
  | nil =>
    cases hd
    have hsame : consumed s = consumed s₀ := by rw [consumed, consumed, ← hmid, List.append_nil]
    rw [← hsame]
    exact hnew hsuccess
  | cons b mid =>
    cases hd
    obtain ⟨m, hm⟩ := h.first d mid hmid.symm hsuccess
    exact ⟨m, hm.mono hpub⟩

theorem Since.step {ctx : Context} (hk : k < 32) {s₀ : State k C} (h : Since ctx s₀ s)
    {a : Action C} (hs : step ctx s a = some s') : Since ctx s₀ s' := by
  have htaking := h.taking.trans hk (step_trans hs)
  have hpub := step_published hs
  rcases step_calls hs with hcalls | ⟨f, report, herr, rfl⟩ | ⟨f, seen, available, report, hp, rfl⟩
  · refine ⟨htaking, hcalls ▸ h.calls, fun c rest hc hsuccess => ?_⟩
    obtain ⟨m, hm⟩ := h.first c rest (hcalls.symm.trans hc) hsuccess
    exact ⟨m, hm.mono hpub⟩
  · exact h.leave rfl hpub htaking fun hsuccess => absurd hsuccess herr
  · have hphase := h.taking.phase
    rw [hp] at hphase
    obtain ⟨rfl, hroom, hc⟩ := hphase
    exact h.leave rfl hpub htaking fun _ => ⟨available, rfl, hroom, hc.writes, rfl⟩

theorem since_refl {ctx : Context} (h : Taking s) : Since ctx s s where
  taking := h
  calls := List.prefix_rfl
  first c rest hc := by
    have hlen := congrArg List.length hc
    simp at hlen

theorem Since.reachable {ctx : Context} (hk : k < 32) {s₀ : State k C} (h : Taking s₀)
    (hr : (machine ctx k C).Reachable s₀ s) : Since ctx s₀ s := by
  obtain ⟨as, has⟩ := hr
  exact Machine.invariant_of_step (fun _ _ _ hI hs => hI.step hk hs) (since_refl h) has

theorem taking_init (slots : BitVec k → C) (buffers : Buffer → C) :
    Taking (init slots buffers) where
  represents := RingBuffer.represents_empty slots
  phase := trivial

theorem Call.Took.targets {ctx : Context} {n m : ℕ} {stream : List C} {c : Call C}
    (h : c.Took ctx n stream m) : c.writes.map Prod.fst = c.span.take (min m c.span.length) := by
  have hroom := h.room
  rw [h.writes, List.map_fst_zip]
  rw [List.length_take, List.length_take, List.length_drop]
  omega

/-- From any ring state that calls in either context lead to: the two contexts report alike
exactly if the ring held as many entries as the span is long. -/
theorem wait_many_alike_iff (hk : k < 32) (ctx : Context) (slots : BitVec k → C)
    (buffers : Buffer → C) {s s₁ s₂ : State k C} {c₁ c₂ : Call C}
    (hs : (machine ctx k C).Reachable (init slots buffers) s) (h : SameCall s s₁ s₂ c₁ c₂) :
    Alike c₁ c₂ ↔ ∀ m, c₁.available = some m → c₁.span.length ≤ m := by
  have htaking := (Since.reachable hk (taking_init slots buffers) hs).taking
  obtain ⟨stream, hpub₁, hpub₂⟩ := h.stream
  obtain ⟨m, hm⟩ := (Since.reachable hk htaking h.run₁).first c₁ [] h.calls₁ h.success₁
  obtain ⟨m', hm'⟩ := (Since.reachable hk htaking h.run₂).first c₂ [] h.calls₂ h.success₂
  obtain rfl : m = m' := Option.some.inj (hm.available.symm.trans (h.available.trans hm'.available))
  have htook₁ := hm.mono hpub₁
  have htook₂ := hm'.mono hpub₂
  have hwrites : c₁.writes = c₂.writes := by rw [htook₁.writes, htook₂.writes, h.span]
  rw [hm.available]
  constructor
  · rintro ha m' ⟨⟩
    have hspan : c₂.span = c₂.span.take (min m c₂.span.length) := by
      rw [← htook₂.targets, ← ha.narrowed₂]
      exact htook₂.narrowed.symm
    have hlen := congrArg List.length hspan
    rw [List.length_take] at hlen
    rw [h.span]
    omega
  · intro hfull
    have hmin : min m c₂.span.length = c₂.span.length := by
      apply min_eq_right
      rw [← h.span]
      exact hfull m rfl
    refine ⟨hwrites, ?_, ?_⟩
    · rw [htook₁.targets]
      exact htook₁.narrowed
    · rw [htook₂.targets, hmin, List.take_length]
      exact htook₂.narrowed

/-- A call from entry to return; the synchronized context has submitted one entry. -/
def oneCall (ctx : Context) (span : List Buffer) : List (Action ℕ) :=
  match ctx with
  | .unsynchronized => [.enter span, .submitted 0, .walk, .walk, .walk, .advance]
  | .synchronized => [.enter span, .submitted 1, .waited 0, .walk, .walk, .walk, .advance]

def emptyRing : State 1 ℕ := init (fun _ => 0) fun _ => 0

def twoEntries : State 1 ℕ :=
  ((machine .unsynchronized 1 ℕ).run emptyRing [.publish 7, .publish 8]).getD emptyRing

def afterCall (ctx : Context) (span : List Buffer) : State 1 ℕ :=
  ((machine ctx 1 ℕ).run twoEntries (oneCall ctx span)).getD twoEntries

theorem twoEntries_reachable : (machine .unsynchronized 1 ℕ).Reachable emptyRing twoEntries :=
  ⟨[.publish 7, .publish 8], rfl⟩

/-- A span for both entries and no more. -/
theorem wait_many_alike_two : ∃ c₁ c₂ : Call ℕ, c₁.writes = [(40, 7), (41, 8)] ∧ Alike c₁ c₂ := by
  obtain ⟨c₁, c₂, h, hw, hspan, hm⟩ : ∃ c₁ c₂, SameCall twoEntries
      (afterCall .unsynchronized [40, 41]) (afterCall .synchronized [40, 41]) c₁ c₂ ∧
      c₁.writes = [(40, 7), (41, 8)] ∧ c₁.span = [40, 41] ∧ c₁.available = some 2 :=
    ⟨_, _, ⟨⟨oneCall .unsynchronized [40, 41], rfl⟩, ⟨oneCall .synchronized [40, 41], rfl⟩,
      rfl, rfl, rfl, rfl, rfl, rfl, [7, 8], List.prefix_rfl, List.prefix_rfl⟩, rfl, rfl, rfl⟩
  refine ⟨c₁, c₂, hw, (wait_many_alike_iff (by decide) .unsynchronized _ _
    twoEntries_reachable h).mpr ?_⟩
  rw [hm, hspan]
  rintro m ⟨⟩
  exact le_rfl

/-- A span for three: the synchronized context leaves its caller with a buffer that was not
written. -/
theorem wait_many_keeps_span : ∃ c₁ c₂ : Call ℕ, SameCall twoEntries
    (afterCall .unsynchronized [40, 41, 42]) (afterCall .synchronized [40, 41, 42]) c₁ c₂ ∧
    c₁.narrowed = [40, 41] ∧ c₂.narrowed = [40, 41, 42] ∧ ¬ Alike c₁ c₂ := by
  refine ⟨_, _, ⟨⟨oneCall .unsynchronized [40, 41, 42], rfl⟩,
    ⟨oneCall .synchronized [40, 41, 42], rfl⟩, rfl, rfl, rfl, rfl, rfl, rfl, [7, 8],
    List.prefix_rfl, List.prefix_rfl⟩, rfl, rfl, fun h => ?_⟩
  have hlen := congrArg List.length h.narrowed₂
  exact absurd hlen (by decide)

end BadIo.Uring.WaitMany
