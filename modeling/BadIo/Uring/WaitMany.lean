import BadIo.Machine
import BadIo.RingBuffer
import BadIo.Uring.Submission

namespace BadIo.Uring.WaitMany

open Native

abbrev Buffer := ℕ

/-- What a call was entered with: the span, and the head of the ring at that moment. -/
structure Frame where
  span : List Buffer
  before : BitVec 32
  deriving DecidableEq

inductive Phase where
  | idle
  | submitting (f : Frame)
  | waiting (f : Frame)
  | walking (f : Frame) (head : BitVec 32) (seen : ℕ)
  | advancing (f : Frame) (seen available : ℕ)
  | aborted
  deriving DecidableEq

inductive Report where
  | sized (r : Result ℕ)
  | void (r : ResultVoid)
  deriving DecidableEq

def Report.error : Report → ℤ
  | .sized r => r.error
  | .void r => r.error

structure Call (C : Type*) where
  span : List Buffer
  /-- The caller's span afterwards, which is passed by reference. -/
  narrowed : List Buffer
  report : Report
  /-- How many entries the last look at the tail found; `none` if the call never got to
  look because it returned through an error path. -/
  available : Option ℕ
  writes : List (Buffer × C)
  /-- What the written buffers hold when the call returns, in the order of the writes. -/
  written : List C
  before : BitVec 32
  after : BitVec 32

structure State (k : ℕ) (C : Type*) where
  ring : RingBuffer 32 k C
  buffers : Buffer → C
  phase : Phase
  writes : List (Buffer × C)
  published : List C
  calls : List (Call C)

inductive Action (C : Type*) where
  | publish (cqe : C)
  | enter (span : List Buffer)
  | submitted (result : ℤ)
  | waited (error : ℤ)
  | walk
  | advance

variable {k : ℕ} {C : Type*}

def State.leave (s : State k C) (f : Frame) (narrowed : List Buffer) (report : Report)
    (available : Option ℕ) : State k C :=
  { s with
    phase := .idle
    calls := s.calls ++ [{
      span := f.span, narrowed, report, available
      writes := s.writes
      written := s.writes.map fun w => s.buffers w.1
      before := f.before
      after := s.ring.head }] }

def State.startWalk (s : State k C) (f : Frame) : State k C :=
  { s with phase := .walking f s.ring.head 0 }

/-- One turn of `io_uring_for_each_cqe` with its body, the same in both contexts. -/
def State.walk (s : State k C) (f : Frame) (head : BitVec 32) (seen : ℕ) : Option (State k C) :=
  if head = s.ring.tail then some { s with phase := .advancing f seen s.ring.available }
  else if seen = f.span.length then
    some { s with phase := .advancing f seen s.ring.available }
  else
    -- `completions[seen]` must be a position of the span
    (f.span[seen]?).map fun buffer =>
      { s with
        buffers := Function.update s.buffers buffer (s.ring.entry head)
        writes := s.writes ++ [(buffer, s.ring.entry head)]
        phase := .walking f (head + 1) (seen + 1) }

/-- `io_uring_cq_advance`, which takes its argument as 32 bits. -/
def State.advanceRing (s : State k C) (seen : ℕ) : State k C :=
  { s with ring := s.ring.advance (BitVec.ofNat 32 seen) }

namespace Unsynchronized

/-- `io_uring_submit_and_wait` returned `error`. -/
def submitted (s : State k C) (f : Frame) (error : ℤ) : State k C :=
  if error ≠ 0 then s.leave f f.span (.sized (.fromError (-error))) none
  else s.startWalk f

def advance (s : State k C) (f : Frame) (seen available : ℕ) : State k C :=
  (s.advanceRing seen).leave f (f.span.take seen) (.sized (.fromValue seen)) (some available)

end Unsynchronized

namespace Synchronized

/-- `io_uring_submit` returned `error` inside `submit_to_kernel`. -/
def submitted (s : State k C) (f : Frame) (error : ℤ) : State k C :=
  match Turn.of error with
  | .again => s
  | .abort => { s with phase := .aborted }
  | .leave r =>
    -- `has_error` is false for these errors, so the wait follows
    if r.hasError then s.leave f f.span (.void r) none else { s with phase := .waiting f }

/-- `io_uring_wait_cqe_nr` returned `error`. -/
def waited (s : State k C) (f : Frame) (error : ℤ) : State k C :=
  if error ≠ 0 then s.leave f f.span (.void (.fromError (-error))) none
  else s.startWalk f

/-- The span is left as it was. -/
def advance (s : State k C) (f : Frame) (seen available : ℕ) : State k C :=
  (s.advanceRing seen).leave f f.span (.void .fromValue) (some available)

end Synchronized

/-- Each access to the shared counters is a step of its own.  The mutex of the synchronized
context is held from entry to return, so that calls do not overlap. -/
def step (ctx : Context) (s : State k C) : Action C → Option (State k C)
  | .publish cqe => (s.ring.publish cqe).map fun ring =>
      { s with ring, published := s.published ++ [cqe] }
  | .enter span => match s.phase with
    | .idle => some { s with phase := .submitting ⟨span, s.ring.head⟩, writes := [] }
    | _ => none
  | .submitted error => match s.phase, ctx with
    | .submitting f, .unsynchronized => some (Unsynchronized.submitted s f error)
    | .submitting f, .synchronized => some (Synchronized.submitted s f error)
    | _, _ => none
  | .waited error => match s.phase with
    | .waiting f => some (Synchronized.waited s f error)
    | _ => none
  | .walk => match s.phase with
    | .walking f head seen => s.walk f head seen
    | _ => none
  | .advance => match s.phase, ctx with
    | .advancing f seen available, .unsynchronized =>
      some (Unsynchronized.advance s f seen available)
    | .advancing f seen available, .synchronized =>
      some (Synchronized.advance s f seen available)
    | _, _ => none

def machine (ctx : Context) (k : ℕ) (C : Type*) : Machine (State k C) (Action C) := ⟨step ctx⟩

def init (slots : BitVec k → C) (buffers : Buffer → C) : State k C :=
  ⟨⟨0, 0, slots⟩, buffers, .idle, [], [], []⟩

inductive Trans (s : State k C) : Action C → State k C → Prop where
  | publish (cqe : C) (ring : RingBuffer 32 k C) (h : s.ring.publish cqe = some ring) :
      Trans s (.publish cqe) { s with ring, published := s.published ++ [cqe] }
  | enter (span : List Buffer) :
      Trans s (.enter span) { s with phase := .submitting ⟨span, s.ring.head⟩, writes := [] }
  | again (error : ℤ) : Trans s (.submitted error) s
  | abort (error : ℤ) : Trans s (.submitted error) { s with phase := .aborted }
  | wait (f : Frame) (error : ℤ) (h : s.phase = .submitting f) :
      Trans s (.submitted error) { s with phase := .waiting f }
  | fail (f : Frame) (a : Action C) (report : Report)
      (h : s.phase = .submitting f ∨ s.phase = .waiting f) (herror : report.error ≠ 0) :
      Trans s a (s.leave f f.span report none)
  | startWalk (f : Frame) (a : Action C) (h : s.phase = .submitting f ∨ s.phase = .waiting f) :
      Trans s a (s.startWalk f)
  | stop (f : Frame) (head : BitVec 32) (seen : ℕ) (h : s.phase = .walking f head seen)
      (hstop : head = s.ring.tail ∨ seen = f.span.length) :
      Trans s .walk { s with phase := .advancing f seen s.ring.available }
  | copy (f : Frame) (head : BitVec 32) (seen : ℕ) (buffer : Buffer)
      (h : s.phase = .walking f head seen) (hmore : head ≠ s.ring.tail)
      (hbuffer : f.span[seen]? = some buffer) :
      Trans s .walk { s with
        buffers := Function.update s.buffers buffer (s.ring.entry head)
        writes := s.writes ++ [(buffer, s.ring.entry head)]
        phase := .walking f (head + 1) (seen + 1) }
  | advance (f : Frame) (seen available : ℕ) (narrowed : List Buffer) (report : Report)
      (h : s.phase = .advancing f seen available) (herror : report.error = 0) :
      Trans s .advance ((s.advanceRing seen).leave f narrowed report (some available))

theorem walk_trans {s s' : State k C} {f : Frame} {head : BitVec 32} {seen : ℕ}
    (hp : s.phase = .walking f head seen) (h : s.walk f head seen = some s') :
    Trans s .walk s' := by
  unfold State.walk at h
  split at h
  · rename_i htail
    cases h
    exact .stop f head seen hp (.inl htail)
  rename_i htail
  split at h
  · rename_i hfull
    cases h
    exact .stop f head seen hp (.inr hfull)
  · obtain ⟨buffer, hb, rfl⟩ := Option.map_eq_some_iff.mp h
    exact .copy f head seen buffer hp htail hb

theorem neg_error {e : ℤ} (he : e ≠ 0) : (-e : ℤ) ≠ 0 := fun h => he (Int.neg_eq_zero.mp h)

theorem step_trans {ctx : Context} {s s' : State k C} {a : Action C}
    (h : step ctx s a = some s') : Trans s a s' := by
  cases a with
  | publish cqe =>
    obtain ⟨ring, hr, rfl⟩ := Option.map_eq_some_iff.mp h
    exact .publish cqe ring hr
  | enter span =>
    simp only [step] at h
    split at h
    · cases h
      exact .enter span
    · cases h
  | submitted error =>
    simp only [step] at h
    split at h
    · rename_i f hp
      cases h
      unfold Unsynchronized.submitted
      split
      · rename_i he
        exact .fail f _ (.sized (.fromError (-error))) (.inl hp) (neg_error he)
      · exact .startWalk f _ (.inl hp)
    · rename_i f hp
      cases h
      unfold Synchronized.submitted
      split
      · exact .again error
      · exact .abort error
      split
      · rename_i r hturn herr
        -- no error leaves the flush as one that `has_error` accepts
        obtain ⟨e, he, rfl⟩ := turn_leave hturn
        rw [ResultVoid.hasError_fromError he] at herr
        exact (Bool.false_ne_true herr).elim
      · exact .wait f error hp
    · cases h
  | waited error =>
    simp only [step] at h
    split at h
    · rename_i f hp
      cases h
      unfold Synchronized.waited
      split
      · rename_i he
        exact .fail f _ (.void (.fromError (-error))) (.inr hp) (neg_error he)
      · exact .startWalk f _ (.inr hp)
    · cases h
  | walk =>
    simp only [step] at h
    split at h
    · rename_i hp
      exact walk_trans hp h
    · cases h
  | advance =>
    simp only [step] at h
    split at h
    · rename_i hp
      cases h
      exact .advance _ _ _ _ _ hp rfl
    · rename_i hp
      cases h
      exact .advance _ _ _ _ _ hp rfl
    · cases h

def consumed (s : State k C) : ℕ := (s.calls.flatMap Call.written).length

/-- A call reports success exactly if it got to the completion ring.  It then took what it
found, as far as its span goes, from the first buffer on, and moved the head by that much; a
call that reports an error wrote nothing and left the head where it was. -/
structure Call.Lawful (c : Call C) : Prop where
  success : c.report.error = 0 ↔ c.available.isSome
  taken : ∀ m, c.available = some m → c.written.length = min m c.span.length
  failed : c.available = none → c.writes = [] ∧ c.after = c.before
  targets : c.writes.map Prod.fst = c.span.take c.written.length
  contents : c.writes.map Prod.snd = c.written
  head : c.after = c.before + BitVec.ofNat 32 c.written.length

structure Frame.Entered (f : Frame) (s : State k C) : Prop where
  nodup : f.span.Nodup
  before : f.before = s.ring.head

/-- `seen` entries are in the buffers and not yet given back to the kernel. -/
structure Copied (s : State k C) (f : Frame) (seen : ℕ) : Prop where
  span : seen ≤ f.span.length
  room : consumed s + seen ≤ s.published.length
  writes : s.writes = (f.span.take seen).zip ((s.published.drop (consumed s)).take seen)
  buffers : (f.span.take seen).map s.buffers = (s.published.drop (consumed s)).take seen

structure Chunk (s : State k C) (f : Frame) (seen : ℕ) : Prop where
  span : seen ≤ f.span.length
  room : consumed s + seen ≤ s.published.length
  writes : s.writes = (f.span.take seen).zip ((s.published.drop (consumed s)).take seen)

def PhaseInv (s : State k C) : Phase → Prop
  | .idle => True
  | .aborted => True
  | .submitting f => f.Entered s ∧ s.writes = []
  | .waiting f => f.Entered s ∧ s.writes = []
  | .walking f head seen =>
    f.Entered s ∧ head = s.ring.head + BitVec.ofNat 32 seen ∧ Copied s f seen
  | .advancing f seen available =>
    f.Entered s ∧ seen = min available f.span.length ∧ Copied s f seen

structure Inv (s : State k C) : Prop where
  represents : s.ring.Represents s.published (consumed s)
  inOrder : s.calls.flatMap Call.written <+: s.published
  lawful : ∀ c ∈ s.calls, c.Lawful
  phase : PhaseInv s s.phase

variable {s s' : State k C} {f : Frame} {seen : ℕ}

theorem Copied.chunk (h : Copied s f seen) : Chunk s f seen := ⟨h.span, h.room, h.writes⟩

theorem Chunk.length_span (h : Chunk s f seen) : (f.span.take seen).length = seen := by
  rw [List.length_take]
  exact Nat.min_eq_left h.span

theorem Chunk.length_stream (h : Chunk s f seen) :
    ((s.published.drop (consumed s)).take seen).length = seen := by
  have hr := h.room
  rw [List.length_take, List.length_drop]
  omega

theorem Chunk.length_writes (h : Chunk s f seen) : s.writes.length = seen := by
  rw [h.writes, List.length_zip, h.length_span, h.length_stream, Nat.min_self]

theorem Chunk.targets (h : Chunk s f seen) : s.writes.map Prod.fst = f.span.take seen := by
  rw [h.writes, List.map_fst_zip]
  rw [h.length_span, h.length_stream]

theorem Chunk.contents (h : Chunk s f seen) :
    s.writes.map Prod.snd = (s.published.drop (consumed s)).take seen := by
  rw [h.writes, List.map_snd_zip]
  rw [h.length_span, h.length_stream]

theorem Chunk.publish (h : Chunk s f seen) (cqe : C) (ring : RingBuffer 32 k C) :
    Chunk { s with ring, published := s.published ++ [cqe] } f seen := by
  have hr := h.room
  refine ⟨h.span, ?_, ?_⟩
  · show consumed s + seen ≤ (s.published ++ [cqe]).length
    rw [List.length_append]
    omega
  · show s.writes = (f.span.take seen).zip (((s.published ++ [cqe]).drop (consumed s)).take seen)
    rw [RingBuffer.take_drop_append [cqe] hr]
    exact h.writes

theorem take_span_succ {buffer : Buffer} (hbuffer : f.span[seen]? = some buffer) :
    f.span.take (seen + 1) = f.span.take seen ++ [buffer] := by
  rw [List.take_add_one, hbuffer, Option.toList_some]

theorem walked_succ (head : BitVec 32) (seen : ℕ) :
    head + BitVec.ofNat 32 seen + 1 = head + BitVec.ofNat 32 (seen + 1) := by
  rw [BitVec.ofNat_add, BitVec.add_assoc]
  rfl

theorem Chunk.copy (h : Chunk s f seen) (hk : k < 32)
    (hrep : s.ring.Represents s.published (consumed s)) {buffer : Buffer}
    (hmore : s.ring.head + BitVec.ofNat 32 seen ≠ s.ring.tail)
    (hbuffer : f.span[seen]? = some buffer) (buffers : Buffer → C) (phase : Phase) :
    Chunk { s with
      buffers, phase
      writes := s.writes ++ [(buffer, s.ring.entry (s.ring.head + BitVec.ofNat 32 seen))] }
      f (seen + 1) := by
  -- short of the tail there is a next entry, and it is the one the walk reads
  have hlt := hrep.lt_of_ne_tail hk h.room hmore
  refine ⟨(List.getElem?_eq_some_iff.mp hbuffer).1, hlt, ?_⟩
  show s.writes ++ _ = (f.span.take (seen + 1)).zip
    ((s.published.drop (consumed s)).take (seen + 1))
  rw [hrep.take_succ hk hlt, take_span_succ hbuffer, List.zip_append, ← h.writes]
  · rfl
  · rw [h.length_span, h.length_stream]

theorem Chunk.stop (h : Chunk s f seen) (hk : k < 32)
    (hrep : s.ring.Represents s.published (consumed s))
    (hstop : s.ring.head + BitVec.ofNat 32 seen = s.ring.tail ∨ seen = f.span.length) :
    seen = min s.ring.available f.span.length := by
  -- the walk ends with as many entries as there are, or as the span has room for
  have hspan := h.span
  have hroom := h.room
  have havail := hrep.available hk
  rcases hstop with htail | hfull
  · have := (hrep.at_tail_iff hk hroom).mp htail
    omega
  · omega

theorem Chunk.advance (h : Chunk s f seen) (hrep : s.ring.Represents s.published (consumed s)) :
    (s.advanceRing seen).ring.Represents s.published (consumed s + s.writes.length) := by
  rw [h.length_writes]
  exact hrep.advance h.room

theorem Copied.written (h : Copied s f seen) :
    (s.writes.map fun w => s.buffers w.1) = (s.published.drop (consumed s)).take seen := by
  have hs := h.span
  have hr := h.room
  rw [h.writes, ← h.buffers, ← Function.comp_def, ← List.map_map, List.map_fst_zip]
  rw [List.length_map]

theorem copied_zero (s : State k C) (f : Frame) (hr : consumed s ≤ s.published.length)
    (hw : s.writes = []) : Copied s f 0 where
  span := Nat.zero_le _
  room := hr
  writes := hw
  buffers := rfl

theorem Copied.publish (h : Copied s f seen) (cqe : C) (ring : RingBuffer 32 k C) :
    Copied { s with ring, published := s.published ++ [cqe] } f seen := by
  have hchunk := h.chunk.publish cqe ring
  refine ⟨hchunk.span, hchunk.room, hchunk.writes, ?_⟩
  show (f.span.take seen).map s.buffers = ((s.published ++ [cqe]).drop (consumed s)).take seen
  rw [RingBuffer.take_drop_append [cqe] h.room]
  exact h.buffers

theorem Inv.publish (hk : k < 32) (h : Inv s) {cqe : C} {ring : RingBuffer 32 k C}
    (hp : s.ring.publish cqe = some ring) :
    Inv { s with ring, published := s.published ++ [cqe] } := by
  have hhead := RingBuffer.publish_head hp
  refine ⟨h.represents.publish hk hp, h.inOrder.trans (List.prefix_append _ _), h.lawful, ?_⟩
  have hentered : ∀ f : Frame, f.Entered s →
      f.Entered { s with ring, published := s.published ++ [cqe] } :=
    fun f hf => ⟨hf.nodup, hf.before.trans hhead.symm⟩
  -- only the ring has changed, and not its head
  have hall : ∀ p, PhaseInv s p →
      PhaseInv { s with ring, published := s.published ++ [cqe] } p := by
    intro p hp
    cases p with
    | idle => trivial
    | aborted => trivial
    | submitting f => exact ⟨hentered f hp.1, hp.2⟩
    | waiting f => exact ⟨hentered f hp.1, hp.2⟩
    | walking f head seen =>
      refine ⟨hentered f hp.1, ?_, hp.2.2.publish cqe ring⟩
      show head = ring.head + _
      rw [hhead]
      exact hp.2.1
    | advancing f seen available =>
      exact ⟨hentered f hp.1, hp.2.1, hp.2.2.publish cqe ring⟩
  exact hall s.phase h.phase

theorem Inv.leave {narrowed : List Buffer} {report : Report} {available : Option ℕ}
    (hrep : s.ring.Represents s.published (consumed s + s.writes.length))
    (hpre : s.calls.flatMap Call.written ++ (s.writes.map fun w => s.buffers w.1) <+: s.published)
    (hold : ∀ c ∈ s.calls, c.Lawful)
    (hnew : ∀ c, (s.leave f narrowed report available).calls = s.calls ++ [c] → c.Lawful) :
    Inv (s.leave f narrowed report available) := by
  -- what a returning call has to establish
  have hcalls : (s.leave f narrowed report available).calls.flatMap Call.written =
      s.calls.flatMap Call.written ++ s.writes.map fun w => s.buffers w.1 := by
    simp [State.leave]
  refine ⟨?_, ?_, ?_, trivial⟩
  · rw [consumed, hcalls, List.length_append, List.length_map]
    exact hrep
  · rw [hcalls]
    exact hpre
  · intro c hc
    rcases List.mem_append.mp hc with hc | hc
    · exact hold c hc
    · rw [List.mem_singleton.mp hc]
      exact hnew _ rfl

theorem Inv.fail (h : Inv s) (he : f.Entered s) (hw : s.writes = []) {narrowed : List Buffer}
    {report : Report} (herror : report.error ≠ 0) : Inv (s.leave f narrowed report none) := by
  refine Inv.leave ?_ ?_ h.lawful ?_
  · rw [hw]
    exact h.represents
  · rw [hw, List.map_nil, List.append_nil]
    exact h.inOrder
  · intro c hc
    obtain rfl := List.singleton_injective (List.append_cancel_left hc)
    refine ⟨iff_of_false herror Bool.false_ne_true,
      fun m hm => (Option.some_ne_none m hm.symm).elim, fun _ => ⟨hw, he.before.symm⟩, ?_, ?_, ?_⟩
    · simp [hw]
    · simp [hw]
    · simp [hw, he.before]

theorem Inv.copy (hk : k < 32) (h : Inv s) {head : BitVec 32} {buffer : Buffer}
    (hp : s.phase = .walking f head seen) (hmore : head ≠ s.ring.tail)
    (hbuffer : f.span[seen]? = some buffer) :
    Inv { s with
      buffers := Function.update s.buffers buffer (s.ring.entry head)
      writes := s.writes ++ [(buffer, s.ring.entry head)]
      phase := .walking f (head + 1) (seen + 1) } := by
  have hphase := h.phase
  rw [hp] at hphase
  obtain ⟨he, rfl, hc⟩ := hphase
  have hnew := hc.chunk.copy hk h.represents hmore hbuffer s.buffers s.phase
  have hlt := h.represents.lt_of_ne_tail hk hc.room hmore
  refine ⟨h.represents, h.inOrder, h.lawful, ⟨he.nodup, he.before⟩, walked_succ _ seen,
    hnew.span, hnew.room, hnew.writes, ?_⟩
  show (f.span.take (seen + 1)).map (Function.update s.buffers buffer _) =
    (s.published.drop (consumed s)).take (seen + 1)
  -- the new buffer is none of those written before
  have hfresh : buffer ∉ f.span.take seen := by
    have hnd := he.nodup.sublist (List.take_sublist (seen + 1) f.span)
    rw [take_span_succ hbuffer] at hnd
    have hdisjoint := (List.nodup_append.mp hnd).2.2
    exact fun hmem => hdisjoint buffer hmem buffer (List.mem_singleton_self _) rfl
  rw [h.represents.take_succ hk hlt, take_span_succ hbuffer, List.map_append, List.map_singleton,
    Function.update_self, ← hc.buffers]
  congr 1
  refine List.map_congr_left fun b hb => Function.update_of_ne ?_ _ _
  rintro rfl
  exact hfresh hb

theorem Inv.stop (hk : k < 32) (h : Inv s) {head : BitVec 32}
    (hp : s.phase = .walking f head seen) (hstop : head = s.ring.tail ∨ seen = f.span.length) :
    Inv { s with phase := .advancing f seen s.ring.available } := by
  have hphase := h.phase
  rw [hp] at hphase
  obtain ⟨he, rfl, hc⟩ := hphase
  exact ⟨h.represents, h.inOrder, h.lawful, ⟨he.nodup, he.before⟩,
    hc.chunk.stop hk h.represents hstop, ⟨hc.span, hc.room, hc.writes, hc.buffers⟩⟩

theorem Inv.advance (h : Inv s) {available : ℕ} (hp : s.phase = .advancing f seen available)
    {narrowed : List Buffer} {report : Report} (herror : report.error = 0) :
    Inv ((s.advanceRing seen).leave f narrowed report (some available)) := by
  have hphase := h.phase
  rw [hp] at hphase
  obtain ⟨he, hm, hc⟩ := hphase
  have hlen := hc.chunk.length_stream
  refine Inv.leave (hc.chunk.advance h.represents) ?_ h.lawful ?_
  · show s.calls.flatMap Call.written ++ (s.writes.map fun w => s.buffers w.1) <+: s.published
    obtain ⟨rest, hrest⟩ := h.inOrder
    have hdrop : s.published.drop (consumed s) = rest := by
      rw [← hrest, consumed, List.drop_left]
    rw [hc.written, hdrop]
    conv_rhs => rw [← hrest]
    exact (List.prefix_append_right_inj _).mpr (List.take_prefix _ _)
  · intro c hcalls
    obtain rfl := List.singleton_injective (List.append_cancel_left hcalls)
    have hw : ((s.advanceRing seen).writes.map fun w => (s.advanceRing seen).buffers w.1) =
      (s.published.drop (consumed s)).take seen := hc.written
    refine ⟨iff_of_true herror rfl, ?_, fun hn => (Option.some_ne_none _ hn).elim, ?_, ?_, ?_⟩
    · intro m hsome
      cases hsome
      rw [hw, hlen]
      exact hm
    · rw [hw, hlen]
      exact hc.chunk.targets
    · rw [hw]
      exact hc.chunk.contents
    · rw [hw, hlen, he.before]
      rfl

/-- The condition on the caller: the buffers of a span are distinct. -/
def Action.Distinct : Action C → Prop
  | .enter span => span.Nodup
  | _ => True

theorem Inv.entered (h : Inv s) (hp : s.phase = .submitting f ∨ s.phase = .waiting f) :
    f.Entered s ∧ s.writes = [] := by
  have hphase := h.phase
  rcases hp with hp | hp
  · rw [hp] at hphase
    exact hphase
  · rw [hp] at hphase
    exact hphase

theorem Inv.trans (hk : k < 32) (h : Inv s) {a : Action C} (ha : a.Distinct)
    (ht : Trans s a s') : Inv s' := by
  cases ht with
  | publish cqe ring hp => exact h.publish hk hp
  | enter span => exact ⟨h.represents, h.inOrder, h.lawful, ⟨ha, rfl⟩, rfl⟩
  | again error => exact h
  | abort error => exact ⟨h.represents, h.inOrder, h.lawful, trivial⟩
  | wait f error hp =>
    have hphase := h.phase
    rw [hp] at hphase
    exact ⟨h.represents, h.inOrder, h.lawful, ⟨hphase.1.nodup, hphase.1.before⟩, hphase.2⟩
  | fail f a report hp herror =>
    obtain ⟨hentered, hwrites⟩ := h.entered hp
    exact h.fail hentered hwrites herror
  | startWalk f a hp =>
    obtain ⟨hentered, hwrites⟩ := h.entered hp
    refine ⟨h.represents, h.inOrder, h.lawful, ⟨hentered.nodup, hentered.before⟩, ?_, ?_⟩
    · exact (BitVec.add_zero _).symm
    · exact copied_zero _ f h.represents.consumed hwrites
  | stop f head seen hp hstop => exact h.stop hk hp hstop
  | copy f head seen buffer hp hmore hbuffer => exact h.copy hk hp hmore hbuffer
  | advance f seen available narrowed report hp herror => exact h.advance hp herror

theorem init_inv (slots : BitVec k → C) (buffers : Buffer → C) : Inv (init slots buffers) where
  represents := RingBuffer.represents_empty slots
  inOrder := List.prefix_rfl
  lawful := by simp [init]
  phase := trivial

/-- `wait_many` indexes the span within bounds, so its loop is never stuck. -/
theorem Inv.walk_enabled (h : Inv s) {head : BitVec 32} (hp : s.phase = .walking f head seen) :
    ∃ s', s.walk f head seen = some s' := by
  have hphase := h.phase
  rw [hp] at hphase
  have hspan := hphase.2.2.span
  unfold State.walk
  by_cases htail : head = s.ring.tail
  · rw [if_pos htail]
    exact ⟨_, rfl⟩
  by_cases hfull : seen = f.span.length
  · rw [if_neg htail, if_pos hfull]
    exact ⟨_, rfl⟩
  · have hlt : seen < f.span.length := by omega
    rw [if_neg htail, if_neg hfull, List.getElem?_eq_getElem hlt]
    exact ⟨_, rfl⟩

/-- In either context, whatever the kernel publishes and returns and however the calls and
the kernel interleave, the calls hand out a prefix of the published stream, each of them
as much as it finds and its span has room for. -/
theorem wait_many_consumes (ctx : Context) (hk : k < 32) (slots : BitVec k → C)
    (buffers : Buffer → C) (as : List (Action C)) (s : State k C)
    (h : (machine ctx k C).run (init slots buffers) as = some s)
    (hspans : ∀ span, .enter span ∈ as → span.Nodup) :
    s.calls.flatMap Call.written <+: s.published ∧ ∀ c ∈ s.calls, c.Lawful := by
  have hdistinct : ∀ a ∈ as, a.Distinct := by
    intro a ha
    cases a with
    | enter span => exact hspans span ha
    | publish cqe => trivial
    | submitted error => trivial
    | waited error => trivial
    | walk => trivial
    | advance => trivial
  have hI : Inv s := Machine.invariant_of_along
    (fun s a s' hI ha hs => hI.trans hk ha (step_trans hs)) (init_inv slots buffers)
    (Machine.along_of_forall hdistinct) h
  exact ⟨hI.inOrder, hI.lawful⟩

/-- A ring of two slots: a call takes the first of two entries, the kernel publishes a
third one into the slot given back, a call fails, and the next one takes the rest.  The
synchronized context submits one entry for each call, and its failing call fails to wait. -/
def wrappedRun : Context → List (Action ℕ)
  | .unsynchronized => [.publish 7, .publish 8, .enter [40], .submitted 0, .walk, .walk, .advance,
      .publish 9, .enter [41, 42, 43], .submitted 1, .enter [41, 42, 43], .submitted 0, .walk,
      .walk, .walk, .advance]
  | .synchronized => [.publish 7, .publish 8, .enter [40], .submitted 1, .waited 0, .walk, .walk,
      .advance, .publish 9, .enter [41, 42, 43], .submitted 1, .waited (-4), .enter [41, 42, 43],
      .submitted 1, .waited 0, .walk, .walk, .walk, .advance]

theorem wrappedRun_nodup (ctx : Context) (span : List Buffer)
    (h : Action.enter span ∈ wrappedRun ctx) : span.Nodup := by
  have hspan : span = [40] ∨ span = [41, 42, 43] := by
    cases ctx <;> simpa [wrappedRun] using h
  rcases hspan with rfl | rfl
  · decide
  · decide

theorem wait_many_consumes_wrapped :
    (∃ s : State 1 ℕ, (machine .unsynchronized 1 ℕ).run (init (fun _ => 0) fun _ => 0)
        (wrappedRun .unsynchronized) = some s ∧ s.calls.map Call.written = [[7], [], [8, 9]] ∧
      s.calls.map (fun c => c.report.error) = [0, -1, 0] ∧
      s.calls.flatMap Call.written <+: s.published ∧ ∀ c ∈ s.calls, c.Lawful) ∧
    ∃ s : State 1 ℕ, (machine .synchronized 1 ℕ).run (init (fun _ => 0) fun _ => 0)
        (wrappedRun .synchronized) = some s ∧ s.calls.map Call.written = [[7], [], [8, 9]] ∧
      s.calls.map (fun c => c.report.error) = [0, 4, 0] ∧
      s.calls.flatMap Call.written <+: s.published ∧ ∀ c ∈ s.calls, c.Lawful := by
  constructor
  · obtain ⟨s, h, hw, he⟩ : ∃ s : State 1 ℕ, (machine .unsynchronized 1 ℕ).run
        (init (fun _ => 0) fun _ => 0) (wrappedRun .unsynchronized) = some s ∧
        s.calls.map Call.written = [[7], [], [8, 9]] ∧
        s.calls.map (fun c => c.report.error) = [0, -1, 0] := ⟨_, rfl, rfl, rfl⟩
    exact ⟨s, h, hw, he, wait_many_consumes .unsynchronized (by decide) _ _ _ s h
      (wrappedRun_nodup .unsynchronized)⟩
  · obtain ⟨s, h, hw, he⟩ : ∃ s : State 1 ℕ, (machine .synchronized 1 ℕ).run
        (init (fun _ => 0) fun _ => 0) (wrappedRun .synchronized) = some s ∧
        s.calls.map Call.written = [[7], [], [8, 9]] ∧
        s.calls.map (fun c => c.report.error) = [0, 4, 0] := ⟨_, rfl, rfl, rfl⟩
    exact ⟨s, h, hw, he, wait_many_consumes .synchronized (by decide) _ _ _ s h
      (wrappedRun_nodup .synchronized)⟩

end BadIo.Uring.WaitMany
