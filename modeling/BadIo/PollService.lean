import Mathlib.Data.Int.Order.Basic
import Mathlib.Data.List.Perm.Basic
import BadIo.LowerBound
import BadIo.Machine

namespace BadIo.PollService

structure PollFd where
  fd : ℤ
  events : BitVec 16
  revents : BitVec 16
  deriving DecidableEq

/-- A completion is `none` once it has been moved out of its vector. -/
structure Service (C : Type*) where
  fds : List PollFd
  completions : List (Option C)
  sorted : SortedBy PollFd.fd fds
  aligned : completions.length = fds.length

/-- What a callback does when it is invoked: the registrations it tries, and whether it
throws after them. -/
structure Reaction (C : Type*) where
  adds : List (ℤ × BitVec 16 × C)
  throws : Bool

variable {C : Type*}

def Service.lowerBound (s : Service C) (fd : ℤ) : ℕ := BadIo.lowerBound PollFd.fd s.fds fd

/-- `none`: the descriptor is polled already, and the call throws.  The completion goes to
the distance from the end that the descriptor has, counted from the beginning. -/
def Service.asyncPollAdd (s : Service C) (fd : ℤ) (events : BitVec 16) (f : C) :
    Option (Service C) :=
  if h : (s.fds[s.lowerBound fd]?).map PollFd.fd = some fd then none
  else some {
    fds := s.fds.insertIdx (s.lowerBound fd) ⟨fd, events, 0⟩
    completions := s.completions.insertIdx (s.fds.length - s.lowerBound fd) (some f)
    sorted := s.sorted.insertIdx h
    aligned := by
      have hlb : s.lowerBound fd ≤ s.fds.length := lowerBound_le s.fds fd
      have ha := s.aligned
      rw [List.length_insertIdx, List.length_insertIdx, if_pos (by omega), if_pos hlb, ha] }

structure Invoked (C : Type*) where
  service : Service C
  /-- The registrations that succeeded. -/
  added : List (ℤ × C)
  threw : Bool

/-- A registration of a descriptor that is polled already throws out of the callback. -/
def invoke (s : Service C) : List (ℤ × BitVec 16 × C) → Bool → Invoked C
  | [], throws => ⟨s, [], throws⟩
  | (fd, events, f) :: adds, throws => match s.asyncPollAdd fd events f with
    | none => ⟨s, [], true⟩
    | some s' =>
      let r := invoke s' adds throws
      { r with added := (fd, f) :: r.added }

structure Ended (C : Type*) where
  service : Service C
  dispatched : List ℤ
  invocations : List (C × BitVec 16)
  added : List (ℤ × C)
  threw : Bool

/-- The loop of `poll` over the polled entries from position `i` on.  `none`: it uses a
vector position out of range or calls a completion that was moved away. -/
def dispatch (react : C → BitVec 16 → Reaction C) (s : Service C) :
    ℕ → List PollFd → Option (Ended C)
  | _, [] => some ⟨s, [], [], [], false⟩
  | i, entry :: entries =>
    let it := s.lowerBound entry.fd
    let index := s.fds.length - it
    -- `erase(it)`, then `move(m_completions[i])`, then `erase(begin + index)`
    if h : it < s.fds.length ∧ i < s.completions.length ∧ index < s.completions.length then
      match s.completions[i]? with
      | some (some f) =>
        let s' : Service C := {
          fds := s.fds.eraseIdx it
          completions := (s.completions.set i none).eraseIdx index
          sorted := s.sorted.sublist (List.eraseIdx_sublist ..)
          aligned := by
            rw [List.length_eraseIdx_of_lt h.1,
              List.length_eraseIdx_of_lt (by rw [List.length_set]; exact h.2.2),
              List.length_set, s.aligned] }
        let r := invoke s' (react f entry.revents).adds (react f entry.revents).throws
        if r.threw then some ⟨r.service, [entry.fd], [(f, entry.revents)], r.added, true⟩
        else (dispatch react r.service (i + 1) entries).map fun e =>
          { e with
            dispatched := entry.fd :: e.dispatched
            invocations := (f, entry.revents) :: e.invocations
            added := r.added ++ e.added }
      | _ => none
    else none

def Service.polled (s : Service C) (revents : ℤ → BitVec 16) : List PollFd :=
  s.fds.map fun e => { e with revents := revents e.fd }

def Service.res (s : Service C) (revents : ℤ → BitVec 16) : ℕ :=
  (s.polled revents).countP fun e => e.revents ≠ 0

/-- `revents` is what `poll(2)` reports, or `none` if it fails. -/
def Service.poll (s : Service C) (revents : Option (ℤ → BitVec 16))
    (react : C → BitVec 16 → Reaction C) : Option (Ended C) :=
  match revents with
  | none => some ⟨s, [], [], [], true⟩
  | some revents =>
    -- as many entries as are ready, but from the front
    dispatch react s 0 ((s.polled revents).take (s.res revents))

/-- The service, and which completion each descriptor was last registered with. -/
structure State (C : Type*) where
  service : Service C
  registered : List (ℤ × C)

inductive Action (C : Type*) where
  | add (fd : ℤ) (events : BitVec 16) (f : C)
  | poll (revents : Option (ℤ → BitVec 16)) (react : C → BitVec 16 → Reaction C)

def State.add (s : State C) (fd : ℤ) (events : BitVec 16) (f : C) : State C :=
  match s.service.asyncPollAdd fd events f with
  | none => s
  | some service => ⟨service, s.registered ++ [(fd, f)]⟩

/-- After undefined behaviour, the state `none`, there are no further steps. -/
def machine (C : Type*) : Machine (Option (State C)) (Action C) where
  step
    | none, _ => none
    | some s, .add fd events f => some (some (s.add fd events f))
    | some s, .poll revents react => some ((s.service.poll revents react).map fun e =>
        ⟨e.service, s.registered.filter (fun r => r.1 ∉ e.dispatched) ++ e.added⟩)

def init : State C := ⟨⟨[], [], List.Pairwise.nil, rfl⟩, []⟩

def Service.entries (s : Service C) : List (PollFd × Option C) := s.fds.zip s.completions.reverse

/-- The service polls the descriptors of the registry, each with its own completion. -/
def Holds (registered : List (ℤ × C)) (s : Service C) : Prop :=
  (s.entries.map fun e => (e.1.fd, e.2)).Perm (registered.map fun r => (r.1, some r.2))

def ready (s : State C) (revents : ℤ → BitVec 16) : List (ℤ × C) :=
  s.registered.filter fun r => revents r.1 ≠ 0

/-- A call of `poll` uses only positions in range, invokes the completions of ready
descriptors, each once with what was reported, and all of them unless one throws, and
keeps everything else registered. -/
def PollRight (s : State C) (revents : Option (ℤ → BitVec 16))
    (react : C → BitVec 16 → Reaction C) : Prop :=
  ∃ e, s.service.poll revents react = some e ∧
    match revents with
    | none => e.invocations = [] ∧ Holds s.registered e.service
    | some revents => ∃ served rest, (ready s revents).Perm (served ++ rest) ∧
        (e.threw = false → rest = []) ∧
        e.invocations.Perm (served.map fun r => (r.2, revents r.1)) ∧
        Holds (s.registered.filter (fun r => r.1 ∉ served.map Prod.fst) ++ e.added) e.service

def Right : Option (State C) → Action C → Option (State C) → Prop
  | some s, .poll revents react, _ => PollRight s revents react
  | _, _, _ => True

/-- `poll(2)` fails or reports no registered descriptor.  With its timeout of -1 it does not
return before one is ready, so that only calls that fail or still wait are of this kind. -/
def NoneReady : Option (State C) → Action C → Option (State C) → Prop
  | some s, .poll (some revents) _, _ => ∀ e ∈ s.service.fds, revents e.fd = 0
  | _, _, _ => True

theorem Holds.add {s s' : Service C} {registered : List (ℤ × C)} {fd : ℤ} {events : BitVec 16}
    {f : C} (h : Holds registered s) (ha : s.asyncPollAdd fd events f = some s') :
    Holds (registered ++ [(fd, f)]) s' := by
  unfold Service.asyncPollAdd at ha
  split at ha
  · cases ha
  · cases ha
    have hlb : s.lowerBound fd ≤ s.fds.length := lowerBound_le s.fds fd
    have hentries := zip_reverse_insertIdx hlb s.aligned (⟨fd, events, 0⟩ : PollFd) (some f)
    unfold Holds
    rw [List.map_append]
    apply (hentries.map _).trans
    rw [List.map_cons]
    exact (List.Perm.cons (fd, some f) h).trans (List.perm_append_singleton _ _).symm

theorem Holds.exists_fd {s : Service C} {registered : List (ℤ × C)} (h : Holds registered s)
    {r : ℤ × C} (hr : r ∈ registered) : ∃ e ∈ s.fds, e.fd = r.1 := by
  have hmem : (r.1, some r.2) ∈ s.entries.map fun e => (e.1.fd, e.2) :=
    h.mem_iff.mpr (List.mem_map.mpr ⟨r, hr, rfl⟩)
  obtain ⟨⟨e, c⟩, he, heq⟩ := List.mem_map.mp hmem
  exact ⟨e, (List.of_mem_zip he).1, congrArg Prod.fst heq⟩

theorem dispatch_first (s : Service C) (revents : ℤ → BitVec 16)
    (react : C → BitVec 16 → Reaction C) {entry : PollFd} {entries : List PollFd} {n : ℕ}
    (h : (s.polled revents).take n = entry :: entries) :
    dispatch react s 0 (entry :: entries) = none := by
  -- the first polled entry is the first descriptor, so the distance from the end is the number
  -- of completions, one past the last position
  have hfirst : s.lowerBound entry.fd = 0 := by
    unfold Service.polled at h
    cases hfds : s.fds with
    | nil => rw [hfds] at h; simp at h
    | cons e fds =>
      rw [hfds, List.map_cons] at h
      cases n with
      | zero => cases h
      | succ n =>
        rw [List.take_succ_cons] at h
        obtain ⟨rfl, -⟩ := List.cons.inj h
        rw [Service.lowerBound, hfds]
        exact lowerBound_cons_not_lt (lt_irrefl _)
  rw [dispatch, dif_neg]
  rw [hfirst, s.aligned]
  omega

theorem res_eq_zero_iff (s : Service C) (revents : ℤ → BitVec 16) :
    s.res revents = 0 ↔ ∀ e ∈ s.fds, revents e.fd = 0 := by
  rw [Service.res, List.countP_eq_zero]
  simp [Service.polled]

theorem poll_ready (s : Service C) {revents : ℤ → BitVec 16} (react : C → BitVec 16 → Reaction C)
    (h : ¬ ∀ e ∈ s.fds, revents e.fd = 0) : s.poll (some revents) react = none := by
  rw [← res_eq_zero_iff] at h
  have hlen : ((s.polled revents).take (s.res revents)).length = s.res revents := by
    rw [List.length_take]
    exact Nat.min_eq_left List.countP_le_length
  show dispatch react s 0 ((s.polled revents).take (s.res revents)) = none
  cases hs : (s.polled revents).take (s.res revents) with
  | nil =>
    rw [hs] at hlen
    exact absurd hlen.symm h
  | cons entry entries => exact dispatch_first s revents react hs

theorem poll_none_ready (s : Service C) {revents : ℤ → BitVec 16}
    (react : C → BitVec 16 → Reaction C) (h : ∀ e ∈ s.fds, revents e.fd = 0) :
    s.poll (some revents) react = some ⟨s, [], [], [], false⟩ := by
  show dispatch react s 0 ((s.polled revents).take (s.res revents)) = _
  rw [(res_eq_zero_iff s revents).mpr h, List.take_zero]
  rfl

def Inv : Option (State C) → Prop
  | none => True
  | some s => Holds s.registered s.service

theorem pollRight_iff {s : State C} (hI : Holds s.registered s.service) (revents : ℤ → BitVec 16)
    (react : C → BitVec 16 → Reaction C) :
    PollRight s (some revents) react ↔ ∀ e ∈ s.service.fds, revents e.fd = 0 := by
  constructor
  · rintro ⟨e, he, -⟩
    by_contra h
    rw [poll_ready s.service react h] at he
    cases he
  · intro h
    have hready : ready s revents = [] := by
      apply List.filter_eq_nil_iff.mpr
      intro r hr
      obtain ⟨e, he, hfd⟩ := hI.exists_fd hr
      rw [← hfd, h e he]
      decide
    refine ⟨_, poll_none_ready s.service react h, [], [], ?_, fun _ => rfl, List.Perm.refl _, ?_⟩
    · rw [hready]
      exact List.Perm.refl _
    · simpa using hI

theorem step_right_iff (s : Option (State C)) (a : Action C) (s' : Option (State C)) (hI : Inv s) :
    Right s a s' ↔ NoneReady s a s' := by
  cases s with
  | none => exact Iff.rfl
  | some s =>
    cases a with
    | add fd events f => exact Iff.rfl
    | poll revents react =>
      cases revents with
      | none => exact ⟨fun _ => trivial, fun _ => ⟨_, rfl, rfl, hI⟩⟩
      | some revents => exact pollRight_iff hI revents react

theorem step_inv (s : Option (State C)) (a : Action C) (s' : Option (State C)) (hI : Inv s)
    (hC : NoneReady s a s') (h : (machine C).step s a = some s') : Inv s' := by
  cases s with
  | none => cases h
  | some s =>
    cases a with
    | add fd events f =>
      cases h
      show Holds (s.add fd events f).registered (s.add fd events f).service
      unfold State.add
      split
      · exact hI
      · rename_i service ha
        exact Holds.add hI ha
    | poll revents react =>
      cases h
      have hend : s.service.poll revents react = some ⟨s.service, [], [], [], revents.isNone⟩ := by
        cases revents with
        | none => rfl
        | some revents => exact poll_none_ready s.service react hC
      rw [hend]
      have hkept : s.registered.filter (fun r => r.1 ∉ ([] : List ℤ)) ++ [] = s.registered := by
        simp
      show Holds (s.registered.filter (fun r => r.1 ∉ ([] : List ℤ)) ++ []) s.service
      rw [hkept]
      exact hI

/-- In a run from an empty service every call of `poll` is right exactly if none of them
finds a descriptor ready. -/
theorem poll_right_iff (as : List (Action C)) :
    (machine C).Along Right (some init) as ↔ (machine C).Along NoneReady (some init) as := by
  have hinit : Inv (some (init : State C)) := List.Perm.refl _
  exact Machine.along_iff_along (A := fun _ _ _ => True)
    (fun s a s' hI _ _ => step_right_iff s a s' hI)
    (fun s a s' hI _ hC h => step_inv s a s' hI hC h) hinit (Machine.along_true _ as)

/-- One descriptor is registered and ready: the completion is not invoked, because the
call has left the range of the vector before. -/
theorem ready_descriptor_out_of_range :
    ¬ (machine ℕ).Along Right (some init)
      [.add 5 1 70, .poll (some fun _ => 1) fun _ _ => ⟨[], false⟩] := by
  intro h
  obtain ⟨-, h⟩ := h _ rfl
  obtain ⟨⟨e, he, -⟩, -⟩ := h _ rfl
  cases he

end BadIo.PollService
