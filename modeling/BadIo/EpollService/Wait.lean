import Mathlib.Data.List.Perm.Subperm
import BadIo.EpollService.Removal

namespace BadIo.EpollService

def EINVAL : ℤ := 22

structure Event where
  events : BitVec 32
  ptr : ℕ
  deriving DecidableEq

/-- What `epoll_pwait` leaves behind: its result, `errno`, the buffer, and the descriptors
it has reported with their event masks. -/
structure Wait where
  result : ℤ
  errno : ℤ
  buffer : List Event
  reported : List (ℤ × BitVec 32)

def State.event (s : State) (r : ℤ × BitVec 32) : Option Event :=
  (s.interest r.1).map fun e => ⟨r.2, e.ptr⟩

/-- `epoll_pwait` on the ready descriptors: it fails if it may report nothing, and else
fills the buffer from the front. -/
structure EpollPwait (s : State) (ready : List (ℤ × BitVec 32)) (buffer : List Event)
    (maxevents : ℤ) (w : Wait) : Prop where
  invalid : maxevents ≤ 0 → w = ⟨-1, EINVAL, buffer, []⟩
  reports : 0 < maxevents → ready ≠ [] →
    w.reported.Subperm ready ∧ w.reported.length = min maxevents.toNat ready.length ∧
      w.result = w.reported.length ∧
      w.buffer = w.reported.filterMap s.event ++ buffer.drop w.reported.length

/-- A call of `poll` that has ended, or waits for ever; `error` is what it has thrown,
unless a completion has. -/
structure Polled where
  state : State
  invocations : List (ℕ × BitVec 32)
  ending : Ending
  error : Option ℤ

/-- The registrations reported are disarmed, being one-shot. -/
def State.disarm (s : State) (fds : List ℤ) : State :=
  { s with
    interest := fun fd =>
      if fd ∈ fds then (s.interest fd).map fun e => { e with armed := false }
      else s.interest fd }

/-- The loop of `poll`, over all entries of a buffer.  A completion changes the service as
`react` says and returns or throws; `none`: one is used after it has been destroyed. -/
def dispatch (react : ℕ → BitVec 32 → State → State × Bool) (s : State) :
    List Event → Option Polled
  | [] => some ⟨s, [], .returned, none⟩
  | event :: events =>
    if s.completions event.ptr = none then none
    else
      let r := react event.ptr event.events s
      if r.2 then some ⟨r.1, [(event.ptr, event.events)], .threw, none⟩
      else match r.1.completions event.ptr with
        -- `ptr->fd` is read
        | none => none
        | some fd =>
          if fd ∈ r.1.locked then some ⟨r.1, [(event.ptr, event.events)], .blocked, none⟩
          else (dispatch react (r.1.erase fd) events).map fun p =>
            { p with invocations := (event.ptr, event.events) :: p.invocations }

/-- `std::vector<epoll_event> events;`, which has no entries, so that `maxevents` is 0. -/
def events : List Event := []

def State.pollEvents (s : State) (w : Wait) (react : ℕ → BitVec 32 → State → State × Bool) :
    Option Polled :=
  if w.result < 0 then some ⟨s, [], .threw, some w.errno⟩
  else dispatch react (s.disarm (w.reported.map Prod.fst)) w.buffer

/-- With a given buffer: whatever the wait does, `poll` returns normally and has invoked the
completions that were reported, at least one, each once with its event mask. -/
def PollRightWith (s : State) (ready : List (ℤ × BitVec 32)) (buffer : List Event)
    (react : ℕ → BitVec 32 → State → State × Bool) : Prop :=
  ∀ w, EpollPwait s ready buffer buffer.length w → ∃ p, s.pollEvents w react = some p ∧
    p.ending = .returned ∧ w.reported ≠ [] ∧
    p.invocations.Perm ((w.reported.filterMap s.event).map fun e => (e.ptr, e.events))

def PollRight (s : State) (ready : List (ℤ × BitVec 32))
    (react : ℕ → BitVec 32 → State → State × Bool) : Prop :=
  PollRightWith s ready events react

variable (s : State) (ready : List (ℤ × BitVec 32))
  (react : ℕ → BitVec 32 → State → State × Bool)

theorem epollPwait_iff (w : Wait) :
    EpollPwait s ready events events.length w ↔ w = ⟨-1, EINVAL, [], []⟩ := by
  constructor
  · intro h
    exact h.invalid le_rfl
  · rintro rfl
    refine ⟨fun _ => rfl, fun hpos => ?_⟩
    exact absurd hpos (Int.lt_irrefl 0)

/-- Every call of `poll` throws `EINVAL`; no completion is ever invoked by it. -/
theorem pollEvents_throws {w : Wait} (hw : EpollPwait s ready events events.length w) :
    s.pollEvents w react = some ⟨s, [], .threw, some EINVAL⟩ := by
  rw [(epollPwait_iff s ready w).mp hw]
  rfl

/-- In no state and for no ready descriptors does `poll` do what it is for. -/
theorem poll_never_right : ¬ PollRight s ready react := by
  intro h
  have hw := (epollPwait_iff s ready _).mpr rfl
  obtain ⟨p, hp, hreturned, -⟩ := h _ hw
  rw [pollEvents_throws s ready react hw] at hp
  cases hp
  cases hreturned

/-- One descriptor is registered and ready. -/
theorem poll_ready_throws : locking.Reachable (some init) (some (init.asyncPollAdd 5)) ∧
    (init.asyncPollAdd 5).event (5, 1) = some ⟨1, 0⟩ ∧
    ¬ PollRight (init.asyncPollAdd 5) [(5, 1)] fun _ _ s => (s, false) := by
  refine ⟨⟨[.add 5 false], rfl⟩, rfl, fun h => ?_⟩
  obtain ⟨p, hp, hreturned, -⟩ := h ⟨-1, EINVAL, [], []⟩ ((epollPwait_iff _ _ _).mpr rfl)
  cases hp
  cases hreturned

theorem dispatch_invocations {buffer : List Event} {p : Polled}
    (h : dispatch react s buffer = some p) (hp : p.ending = .returned) :
    p.invocations = buffer.map fun e => (e.ptr, e.events) := by
  induction buffer generalizing s p with
  | nil =>
    cases h
    rfl
  | cons event buffer ih =>
    rw [dispatch] at h
    split at h
    · cases h
    dsimp only at h
    split at h
    · cases h
      cases hp
    split at h
    · cases h
    split at h
    · cases h
      cases hp
    · obtain ⟨q, hq, rfl⟩ := Option.map_eq_some_iff.mp h
      exact congrArg (_ :: ·) (ih _ hq hp)

/-- A larger buffer alone would not do: it would have to be no longer than the list of what is
ready. -/
theorem length_le_of_pollRightWith {buffer : List Event}
    (h : PollRightWith s ready buffer react) : buffer.length ≤ ready.length := by
  by_contra hlen
  let w : Wait := ⟨ready.length, 0, ready.filterMap s.event ++ buffer.drop ready.length, ready⟩
  have hw : EpollPwait s ready buffer buffer.length w := by
    refine ⟨fun hneg => ?_, fun _ _ => ⟨List.Subperm.refl _, ?_, rfl, rfl⟩⟩
    · omega
    · show ready.length = min (buffer.length : ℤ).toNat ready.length
      omega
  obtain ⟨p, hp, hreturned, -, hperm⟩ := h w hw
  have hresult : ¬ w.result < 0 := Int.not_lt.mpr (Int.natCast_nonneg _)
  rw [State.pollEvents, if_neg hresult] at hp
  have hsize := hperm.length_eq
  rw [dispatch_invocations _ _ hp hreturned, List.length_map, List.length_map,
    List.length_append, List.length_drop] at hsize
  change (ready.filterMap s.event).length + _ = (ready.filterMap s.event).length at hsize
  omega

end BadIo.EpollService
