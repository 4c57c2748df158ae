import Mathlib.Data.List.Basic
import Mathlib.Data.Int.Order.Basic
import Mathlib.Logic.Function.Basic
import BadIo.Machine

namespace BadIo.EpollService

/-- An entry of the interest list: `data.ptr`, and whether the entry can still fire. -/
structure Interest where
  ptr : ℕ
  armed : Bool
  deriving DecidableEq

/-- A call of the service that has called a completion, or is about to. -/
inductive Frame where
  | dispatching (rest : List ℕ) (running : Option ℕ)
  /-- The accessor of `poll_remove` locks the entry of `fd`. -/
  | removing (fd : ℤ) (ptr : ℕ)
  deriving DecidableEq

/-- The kernel's interest list and the table `m_data`, with the calls in progress on a stack. 
Completions are numbered in the order of their registration, so that a number is never used
again, even where an address would be. -/
structure State where
  interest : ℤ → Option Interest
  data : ℤ → Option ℕ
  /-- The member `fd` of every completion that has not been destroyed. -/
  completions : ℕ → Option ℤ
  next : ℕ
  frames : List Frame
  invoked : List ℕ

/-- `refused` are failures of `epoll_ctl` for other reasons, which come from outside. -/
inductive Act where
  | add (fd : ℤ) (refused : Bool)
  | remove (fd : ℤ) (refused : Bool)
  | poll (batch : List ℤ)
  | iterate
  | finish
  | throw
  deriving DecidableEq

def Frame.calling : Frame → Bool
  | .dispatching _ running => running.isSome
  | .removing _ _ => true

def Frame.accessor : Frame → Option ℤ
  | .dispatching _ _ => none
  | .removing fd _ => some fd

namespace State

/-- The next step is one of the program, and not one of the service. -/
def outside (s : State) : Bool := s.frames.head?.all Frame.calling

def locked (s : State) : List ℤ := s.frames.filterMap Frame.accessor

def erase (s : State) (fd : ℤ) : State :=
  match s.data fd with
  | none => s
  | some ptr =>
    { s with
      data := Function.update s.data fd none
      completions := Function.update s.completions ptr none }

/-- `ptr->pfn_invoke(ptr, ...)`, with the frames to return to; `none` is undefined
behaviour. -/
def call (s : State) (ptr : ℕ) (frames : List Frame) : Option State :=
  match s.completions ptr with
  | none => none
  | some _ => some { s with frames := frames, invoked := ptr :: s.invoked }

def asyncPollAdd (s : State) (fd : ℤ) : State :=
  let event : Interest := ⟨s.next, true⟩
  let s' := { s with interest := Function.update s.interest fd (some event), next := s.next + 1 }
  match s.data fd with
  | none =>
    { s' with
      data := Function.update s.data fd (some s.next)
      completions := Function.update s.completions s.next (some fd) }
  -- `emplace` finds the key in use, and the new completion is destroyed
  | some _ => s'

/-- `none` is the wait for an accessor that a caller of this call holds. -/
def pollRemove (s : State) (fd : ℤ) : Option (Option State) :=
  let s' := { s with interest := Function.update s.interest fd none }
  match s.data fd with
  | none => some (some s')
  | some ptr => if fd ∈ s.locked then none else some (s'.call ptr (.removing fd ptr :: s.frames))

/-- `epoll_pwait` has reported the batch, and disarmed its entries. -/
def poll (s : State) (batch : List ℤ) : State :=
  { s with
    interest := fun fd =>
      if fd ∈ batch then (s.interest fd).map fun e => { e with armed := false }
      else s.interest fd
    frames := .dispatching (batch.filterMap fun fd => (s.interest fd).map Interest.ptr) none ::
      s.frames }

/-- The body of the loop of `poll` after the call of the completion `ptr`. -/
def finish (s : State) (ptr : ℕ) (rest : List ℕ) (frames : List Frame) : Option (Option State) :=
  match s.completions ptr with
  -- `ptr->fd` is read
  | none => some none
  | some fd =>
    if fd ∈ s.locked then none
    else some (some { s.erase fd with frames := .dispatching rest none :: frames })

end State

def step (s : State) : Act → Option (Option State)
  | .add fd refused =>
    if s.outside = false then none
    else if refused = true ∨ (s.interest fd).isSome then some (some s)
    else some (some (s.asyncPollAdd fd))
  | .remove fd refused =>
    if s.outside = false then none
    else if refused = true ∨ s.interest fd = none then some (some s)
    else s.pollRemove fd
  | .poll batch =>
    if s.outside = true ∧ batch.Nodup ∧ ∀ fd ∈ batch, (s.interest fd).isSome then
      some (some (s.poll batch))
    else none
  | .iterate => match s.frames with
    | .dispatching [] none :: frames => some (some { s with frames := frames })
    | .dispatching (ptr :: rest) none :: frames =>
      some (s.call ptr (.dispatching rest (some ptr) :: frames))
    | _ => none
  | .finish => match s.frames with
    | .dispatching rest (some ptr) :: frames => s.finish ptr rest frames
    | .removing fd _ :: frames => some (some { s.erase fd with frames := frames })
    | _ => none
  | .throw => match s.frames with
    | .dispatching _ (some _) :: frames => some (some { s with frames := frames })
    | .removing _ _ :: frames => some (some { s with frames := frames })
    | _ => none

/-- After undefined behaviour, the state `none`, there are no further steps. -/
def machine : Machine (Option State) Act where
  step
    | none, _ => none
    | some s, a => step s a

def init : State := ⟨fun _ => none, fun _ => none, fun _ => none, 0, [], []⟩

inductive Trans (s : State) : Act → Option State → Prop where
  | notAdded (fd : ℤ) (refused : Bool) (h : refused = true ∨ (s.interest fd).isSome) :
      Trans s (.add fd refused) (some s)
  | added (fd : ℤ) (hinterest : s.interest fd = none) :
      Trans s (.add fd false) (some (s.asyncPollAdd fd))
  | notRemoved (fd : ℤ) (refused : Bool) (h : refused = true ∨ s.interest fd = none) :
      Trans s (.remove fd refused) (some s)
  | forgotten (fd : ℤ) (hinterest : (s.interest fd).isSome) (hdata : s.data fd = none) :
      Trans s (.remove fd false)
        (some { s with interest := Function.update s.interest fd none })
  | removing (fd : ℤ) (ptr : ℕ) (hinterest : (s.interest fd).isSome) (hdata : s.data fd = some ptr)
      (hlocked : fd ∉ s.locked) (houtside : s.outside = true)
      (halive : (s.completions ptr).isSome) :
      Trans s (.remove fd false)
        (some { s with
          interest := Function.update s.interest fd none
          frames := .removing fd ptr :: s.frames
          invoked := ptr :: s.invoked })
  | removingDead (fd : ℤ) (ptr : ℕ) (hdata : s.data fd = some ptr)
      (hdead : s.completions ptr = none) : Trans s (.remove fd false) none
  | polled (batch : List ℤ) (houtside : s.outside = true) (hnodup : batch.Nodup)
      (hbatch : ∀ fd ∈ batch, (s.interest fd).isSome) :
      Trans s (.poll batch) (some (s.poll batch))
  | left (frames : List Frame) (hframes : s.frames = .dispatching [] none :: frames) :
      Trans s .iterate (some { s with frames := frames })
  | dispatched (ptr : ℕ) (rest : List ℕ) (frames : List Frame)
      (hframes : s.frames = .dispatching (ptr :: rest) none :: frames)
      (halive : (s.completions ptr).isSome) :
      Trans s .iterate
        (some { s with
          frames := .dispatching rest (some ptr) :: frames
          invoked := ptr :: s.invoked })
  | dispatchedDead (ptr : ℕ) (rest : List ℕ) (frames : List Frame)
      (hframes : s.frames = .dispatching (ptr :: rest) none :: frames)
      (hdead : s.completions ptr = none) : Trans s .iterate none
  | finished (ptr : ℕ) (rest : List ℕ) (frames : List Frame) (fd : ℤ)
      (hframes : s.frames = .dispatching rest (some ptr) :: frames)
      (halive : s.completions ptr = some fd) (hlocked : fd ∉ s.locked) :
      Trans s .finish (some { s.erase fd with frames := .dispatching rest none :: frames })
  | finishedDead (ptr : ℕ) (rest : List ℕ) (frames : List Frame)
      (hframes : s.frames = .dispatching rest (some ptr) :: frames)
      (hdead : s.completions ptr = none) : Trans s .finish none
  | removed (fd : ℤ) (ptr : ℕ) (frames : List Frame)
      (hframes : s.frames = .removing fd ptr :: frames) :
      Trans s .finish (some { s.erase fd with frames := frames })
  | thrown (rest : List ℕ) (ptr : ℕ) (frames : List Frame)
      (hframes : s.frames = .dispatching rest (some ptr) :: frames) :
      Trans s .throw (some { s with frames := frames })
  | thrownRemoving (fd : ℤ) (ptr : ℕ) (frames : List Frame)
      (hframes : s.frames = .removing fd ptr :: frames) :
      Trans s .throw (some { s with frames := frames })

theorem step_trans {s : State} {a : Act} {t : Option State} (h : step s a = some t) :
    Trans s a t := by
  cases a with
  | add fd refused =>
    rw [step] at h
    split at h
    · cases h
    split at h
    · rename_i hr
      cases h
      exact .notAdded fd refused hr
    · rename_i hr
      cases h
      rw [not_or, Bool.not_eq_true, Option.not_isSome_iff_eq_none] at hr
      obtain ⟨rfl, hinterest⟩ := hr
      exact .added fd hinterest
  | remove fd refused =>
    rw [step] at h
    split at h
    · cases h
    rename_i houtside
    split at h
    · rename_i hr
      cases h
      exact .notRemoved fd refused hr
    · rename_i hr
      rw [not_or, Bool.not_eq_true] at hr
      obtain ⟨rfl, hinterest⟩ := hr
      have hsome : (s.interest fd).isSome := Option.isSome_iff_ne_none.mpr hinterest
      rw [State.pollRemove] at h
      split at h
      · rename_i hdata
        cases h
        exact .forgotten fd hsome hdata
      · rename_i ptr hdata
        split at h
        · cases h
        rename_i hlocked
        cases h
        rw [Bool.not_eq_false] at houtside
        cases hc : s.completions ptr with
        | none =>
          simp only [State.call, hc]
          exact .removingDead fd ptr hdata hc
        | some fd' =>
          simp only [State.call, hc]
          exact .removing fd ptr hsome hdata hlocked houtside (hc ▸ rfl)
  | poll batch =>
    rw [step] at h
    split at h
    · rename_i hb
      cases h
      exact .polled batch hb.1 hb.2.1 hb.2.2
    · cases h
  | iterate =>
    rw [step] at h
    split at h
    · rename_i frames hframes
      cases h
      exact .left frames hframes
    · rename_i ptr rest frames hframes
      cases h
      cases hc : s.completions ptr with
      | none =>
        simp only [State.call, hc]
        exact .dispatchedDead ptr rest frames hframes hc
      | some fd =>
        simp only [State.call, hc]
        exact .dispatched ptr rest frames hframes (hc ▸ rfl)
    · cases h
  | finish =>
    rw [step] at h
    split at h
    · rename_i rest ptr frames hframes
      rw [State.finish] at h
      split at h
      · rename_i hc
        cases h
        exact .finishedDead ptr rest frames hframes hc
      · rename_i fd hc
        split at h
        · cases h
        rename_i hlocked
        cases h
        exact .finished ptr rest frames fd hframes hc hlocked
    · rename_i fd ptr frames hframes
      cases h
      exact .removed fd ptr frames hframes
    · cases h
  | throw =>
    rw [step] at h
    split at h
    · rename_i rest ptr frames hframes
      cases h
      exact .thrown rest ptr frames hframes
    · rename_i fd ptr frames hframes
      cases h
      exact .thrownRemoving fd ptr frames hframes
    · cases h

/-- The living completions are those that `m_data` owns. -/
structure Owned (s : State) : Prop where
  iff : ∀ ptr fd, s.completions ptr = some fd ↔ s.data fd = some ptr
  fresh : ∀ ptr fd, s.completions ptr = some fd → ptr < s.next

theorem Owned.next {s : State} (h : Owned s) : s.completions s.next = none := by
  by_contra hc
  obtain ⟨fd, hfd⟩ := Option.ne_none_iff_exists'.mp hc
  exact Nat.lt_irrefl _ (h.fresh _ _ hfd)

theorem Owned.inj {s : State} (h : Owned s) {fd fd' : ℤ} {ptr : ℕ} (hd : s.data fd = some ptr)
    (hd' : s.data fd' = some ptr) : fd = fd' :=
  Option.some.inj (((h.iff ptr fd).mpr hd).symm.trans ((h.iff ptr fd').mpr hd'))

theorem erase_eq {s : State} {fd : ℤ} {ptr : ℕ} (h : s.data fd = some ptr) :
    s.erase fd =
      { s with
        data := Function.update s.data fd none
        completions := Function.update s.completions ptr none } := by
  rw [State.erase, h]

theorem Owned.erase {s : State} {fd : ℤ} {ptr : ℕ} (h : Owned s) (hd : s.data fd = some ptr) :
    Owned (s.erase fd) := by
  rw [erase_eq hd]
  constructor
  · intro p d
    by_cases hp : p = ptr
    · subst hp
      by_cases hfd : d = fd
      · simp [hfd]
      · have hne : s.data d ≠ some p := fun hd' => hfd (h.inj hd' hd)
        simpa [hfd] using hne
    · by_cases hfd : d = fd
      · have hne : s.completions p ≠ some fd := by
          rw [ne_eq, h.iff, hd]
          exact fun he => hp (Option.some.inj he).symm
        simpa [hp, hfd] using hne
      · simpa [hp, hfd] using h.iff p d
  · intro p d hc
    by_cases hp : p = ptr
    · simp [hp] at hc
    · exact h.fresh p d (by simpa [hp] using hc)

theorem asyncPollAdd_eq {s : State} {fd : ℤ} (h : s.data fd = none) :
    s.asyncPollAdd fd =
      { s with
        interest := Function.update s.interest fd (some ⟨s.next, true⟩)
        data := Function.update s.data fd (some s.next)
        completions := Function.update s.completions s.next (some fd)
        next := s.next + 1 } := by
  rw [State.asyncPollAdd, h]

theorem Owned.asyncPollAdd {s : State} {fd : ℤ} (h : Owned s) (hd : s.data fd = none) :
    Owned (s.asyncPollAdd fd) := by
  rw [asyncPollAdd_eq hd]
  constructor
  · intro p d
    by_cases hp : p = s.next
    · subst hp
      by_cases hfd : d = fd
      · simp [hfd]
      · have hne : s.data d ≠ some s.next := by
          rw [ne_eq, ← h.iff, h.next]
          nofun
        have hne' : fd ≠ d := fun he => hfd he.symm
        simp [hfd, hne, hne']
    · by_cases hfd : d = fd
      · have hne : s.completions p ≠ some fd := by
          rw [ne_eq, h.iff, hd]
          nofun
        have hne' : s.next ≠ p := fun he => hp he.symm
        simp [hp, hfd, hne, hne']
      · simpa [hp, hfd] using h.iff p d
  · intro p d hc
    by_cases hp : p = s.next
    · exact hp ▸ Nat.lt_succ_self _
    · have hc' : s.completions p = some d := by simpa [hp] using hc
      exact Nat.lt_succ_of_lt (h.fresh p d hc')

end BadIo.EpollService
