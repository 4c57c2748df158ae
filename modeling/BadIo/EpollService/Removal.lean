import BadIo.EpollService.InStep

namespace BadIo.EpollService

def ECANCELED : ℤ := 125

/-- `emplace` waits for an accessor of the same key, also where a caller of this call holds it,
and then for ever. -/
def Blocks (s : State) : Act → Prop
  | .add fd refused => refused = false ∧ s.interest fd = none ∧ fd ∈ s.locked
  | _ => False

instance (s : State) : (a : Act) → Decidable (Blocks s a)
  | .add fd refused =>
    inferInstanceAs (Decidable (refused = false ∧ s.interest fd = none ∧ fd ∈ s.locked))
  | .remove _ _ => instDecidableFalse
  | .poll _ => instDecidableFalse
  | .iterate => instDecidableFalse
  | .finish => instDecidableFalse
  | .throw => instDecidableFalse

/-- The machine with exclusive accessors; a step that waits is not enabled. -/
def locking : Machine (Option State) Act where
  step
    | none, _ => none
    | some s, a => if Blocks s a then none else step s a

/-- The registrations that a completion tries, each with whether `epoll_ctl` refuses it for
reasons of its own, and whether the completion throws after them.  An exception of a
registration may be caught or not. -/
structure Reaction where
  adds : List (ℤ × Bool)
  throws : Bool

inductive Ending where
  | returned
  | threw
  | blocked
  deriving DecidableEq

structure Added where
  state : State
  registered : List (ℤ × ℕ)
  blocked : Bool

def adding (s : State) : List (ℤ × Bool) → Added
  | [] => ⟨s, [], false⟩
  | (fd, refused) :: adds =>
    if refused = true ∨ (s.interest fd).isSome then adding s adds
    else if fd ∈ s.locked then
      ⟨{ s with
        interest := Function.update s.interest fd (some ⟨s.next, true⟩)
        next := s.next + 1 }, [], true⟩
    else
      let r := adding (s.asyncPollAdd fd) adds
      { r with registered := (fd, s.next) :: r.registered }

/-- A call of `poll_remove` that has ended, or waits for ever. -/
structure Removed where
  state : State
  invocations : List (ℕ × ℤ)
  registered : List (ℤ × ℕ)
  ending : Ending

def State.removing (s : State) (fd : ℤ) (ptr : ℕ) : State :=
  { s with
    interest := Function.update s.interest fd none
    frames := .removing fd ptr :: s.frames
    invoked := ptr :: s.invoked }

/-- `none`: the completion has been destroyed. -/
def State.cancel (s : State) (fd : ℤ) (refused : Bool) (react : ℕ → Reaction) : Option Removed :=
  if refused = true ∨ s.interest fd = none then some ⟨s, [], [], .threw⟩
  else
    let s' := { s with interest := Function.update s.interest fd none }
    match s.data fd with
    | none => some ⟨s', [], [], .returned⟩
    | some ptr =>
      if fd ∈ s.locked then some ⟨s', [], [], .blocked⟩
      else if s.completions ptr = none then none
      else
        let r := adding (s.removing fd ptr) (react ptr).adds
        if r.blocked then some ⟨r.state, [(ptr, -ECANCELED)], r.registered, .blocked⟩
        else if (react ptr).throws then
          some ⟨{ r.state with frames := s.frames }, [(ptr, -ECANCELED)], r.registered, .threw⟩
        else
          some ⟨{ r.state.erase fd with frames := s.frames }, [(ptr, -ECANCELED)], r.registered,
            .returned⟩

/-- If the descriptor cannot be removed, the call throws and nothing has happened.
Otherwise the completion in `m_data` is invoked once with `-ECANCELED`, the call ends as the
completion does, and `m_data` has lost the old entry, but not one that the completion has
made for the same descriptor. -/
structure CancelRight (s : State) (fd : ℤ) (refused : Bool) (react : ℕ → Reaction) : Prop where
  failed : refused = true ∨ s.interest fd = none →
    s.cancel fd refused react = some ⟨s, [], [], .threw⟩
  removed : ¬ (refused = true ∨ s.interest fd = none) →
    ∃ ptr e, s.data fd = some ptr ∧ s.cancel fd refused react = some e ∧
      e.invocations = [(ptr, -ECANCELED)] ∧
      e.ending = (if (react ptr).throws then .threw else .returned) ∧
      e.state.data fd ≠ some ptr ∧
      ∀ new, (fd, new) ∈ e.registered → e.state.data fd = some new ∧
        e.state.completions new = some fd ∧ e.state.interest fd = some ⟨new, true⟩

structure Locking (s : State) : Prop where
  owned : Owned s
  nodup : s.locked.Nodup
  removing : ∀ fd ptr, .removing fd ptr ∈ s.frames → s.data fd = some ptr ∧ s.interest fd = none

variable {s : State} {fd : ℤ} {ptr : ℕ}

theorem asyncPollAdd_stale {p : ℕ} (h : s.data fd = some p) :
    s.asyncPollAdd fd =
      { s with
        interest := Function.update s.interest fd (some ⟨s.next, true⟩)
        next := s.next + 1 } := by
  rw [State.asyncPollAdd, h]

theorem Owned.asyncPollAdd' (h : Owned s) (fd : ℤ) : Owned (s.asyncPollAdd fd) := by
  -- a registration for a key in use only takes up a number
  cases hd : s.data fd with
  | none => exact h.asyncPollAdd hd
  | some p =>
    rw [asyncPollAdd_stale hd]
    exact ⟨h.iff, fun ptr d hc => Nat.lt_succ_of_lt (h.fresh ptr d hc)⟩

theorem Owned.erase' (h : Owned s) (fd : ℤ) : Owned (s.erase fd) := by
  cases hd : s.data fd with
  | none =>
    rw [State.erase, hd]
    exact h
  | some p => exact h.erase hd

@[simp] theorem asyncPollAdd_frames (s : State) (fd : ℤ) :
    (s.asyncPollAdd fd).frames = s.frames := by
  unfold State.asyncPollAdd
  split <;> rfl

theorem asyncPollAdd_data_ne {fd' : ℤ} (h : fd' ≠ fd) :
    (s.asyncPollAdd fd).data fd' = s.data fd' := by
  unfold State.asyncPollAdd
  split
  · exact Function.update_of_ne h _ _
  · rfl

theorem asyncPollAdd_interest (s : State) (fd : ℤ) :
    (s.asyncPollAdd fd).interest =
      Function.update s.interest fd (some ⟨s.next, true⟩) := by
  unfold State.asyncPollAdd
  split <;> rfl

@[simp] theorem erase_frames (s : State) (fd : ℤ) : (s.erase fd).frames = s.frames := by
  unfold State.erase
  split <;> rfl

@[simp] theorem erase_interest (s : State) (fd : ℤ) : (s.erase fd).interest = s.interest := by
  unfold State.erase
  split <;> rfl

theorem erase_data (s : State) (fd : ℤ) :
    (s.erase fd).data = Function.update s.data fd none := by
  unfold State.erase
  split
  · rename_i hd
    rw [← hd, Function.update_eq_self]
  · rfl

theorem locked_eq {t : State} (h : t.frames = s.frames) : t.locked = s.locked := by
  rw [State.locked, State.locked, h]

theorem Locking.interest (h : Locking s) (hl : fd ∈ s.locked) : s.interest fd = none := by
  obtain ⟨p, hf⟩ := mem_locked.mp hl
  exact (h.removing fd p hf).2

theorem Locking.other (h : Locking s) (hl : fd ∉ s.locked) {t : State} (howned : Owned t)
    (hframes : t.frames = s.frames) (hdata : ∀ d, d ≠ fd → t.data d = s.data d)
    (hinterest : ∀ d, d ≠ fd → t.interest d = s.interest d) : Locking t := by
  refine ⟨howned, (locked_eq hframes).symm ▸ h.nodup, fun d p hf => ?_⟩
  rw [hframes] at hf
  have hne : d ≠ fd := by
    rintro rfl
    exact hl (mem_locked.mpr ⟨p, hf⟩)
  rw [hdata d hne, hinterest d hne]
  exact h.removing d p hf

theorem Locking.added (h : Locking s) (hl : fd ∉ s.locked) : Locking (s.asyncPollAdd fd) := by
  apply h.other hl (h.owned.asyncPollAdd' fd) (asyncPollAdd_frames s fd)
  · intro d hne
    exact asyncPollAdd_data_ne hne
  · intro d hne
    rw [asyncPollAdd_interest, Function.update_of_ne hne]

theorem update_none {f : ℤ → Option Interest} {d : ℤ} (h : f d = none) (fd : ℤ) :
    Function.update f fd none d = none := by
  by_cases hne : d = fd
  · exact hne ▸ Function.update_self _ _ _
  · exact (Function.update_of_ne hne _ _).trans h

theorem Locking.started (h : Locking s) (hd : s.data fd = some ptr) (hl : fd ∉ s.locked) :
    Locking (s.removing fd ptr) := by
  refine ⟨⟨h.owned.iff, h.owned.fresh⟩, List.nodup_cons.mpr ⟨hl, h.nodup⟩, fun d p hf => ?_⟩
  rcases List.mem_cons.mp hf with heq | hf
  · cases heq
    exact ⟨hd, Function.update_self _ _ _⟩
  · obtain ⟨hdata, hinterest⟩ := h.removing d p hf
    exact ⟨hdata, update_none hinterest fd⟩

theorem Locking.erase (h : Locking s) (hl : fd ∉ s.locked) : Locking (s.erase fd) := by
  apply h.other hl (h.owned.erase' fd) (erase_frames s fd)
  · intro d hne
    rw [erase_data, Function.update_of_ne hne]
  · intro d hne
    rw [erase_interest]

theorem erase_withFrames (s : State) (fd : ℤ) (frames : List Frame) :
    { s.erase fd with frames := frames } = State.erase { s with frames := frames } fd := by
  unfold State.erase
  dsimp only
  cases s.data fd with
  | none => rfl
  | some p => rfl

theorem Locking.mono (h : Locking s) {t : State} (hdata : t.data = s.data)
    (hcompletions : t.completions = s.completions) (hnext : t.next = s.next)
    (hinterest : ∀ d, s.interest d = none → t.interest d = none)
    (hframes : ∀ d p, Frame.removing d p ∈ t.frames → .removing d p ∈ s.frames)
    (hlocked : t.locked.Sublist s.locked) : Locking t := by
  refine ⟨⟨fun p d => ?_, fun p d hc => ?_⟩, h.nodup.sublist hlocked, fun d p hf => ?_⟩
  · rw [hcompletions, hdata]
    exact h.owned.iff p d
  · rw [hcompletions] at hc
    rw [hnext]
    exact h.owned.fresh p d hc
  · obtain ⟨hd, hi⟩ := h.removing d p (hframes d p hf)
    exact ⟨hdata ▸ hd, hinterest d hi⟩

theorem Locking.pop (h : Locking s) {f : Frame} {frames : List Frame}
    (hf : s.frames = f :: frames) : Locking { s with frames := frames } := by
  have hsub : frames.Sublist s.frames := hf ▸ List.sublist_cons_self f frames
  exact h.mono rfl rfl rfl (fun _ hi => hi) (fun _ _ hm => hsub.subset hm) (hsub.filterMap _)

theorem Locking.push (h : Locking s) (rest : List ℕ) (running : Option ℕ) :
    Locking { s with frames := .dispatching rest running :: s.frames } := by
  refine h.mono rfl rfl rfl (fun _ hi => hi) (fun d p hm => ?_) (List.Sublist.refl _)
  rcases List.mem_cons.mp hm with heq | hm
  · cases heq
  · exact hm

theorem locking_step_eq_some {a : Act} {u : Option State} :
    locking.step (some s) a = some u ↔ ¬ Blocks s a ∧ step s a = some u := by
  show (if Blocks s a then none else step s a) = some u ↔ _
  rw [Option.ite_none_left_eq_some]

theorem locking_step {a : Act} (h : ¬ Blocks s a) : locking.step (some s) a = step s a := if_neg h

theorem Locking.step (h : Locking s) {a : Act} {t : State}
    (hs : locking.step (some s) a = some (some t)) : Locking t := by
  obtain ⟨hblocks, hstep⟩ := locking_step_eq_some.mp hs
  generalize hu : some t = u at hstep
  cases step_trans hstep with
  | notAdded fd refused hr => cases hu; exact h
  | added fd hinterest =>
    cases hu
    exact h.added fun hl => hblocks ⟨rfl, hinterest, hl⟩
  | notRemoved fd refused hr => cases hu; exact h
  | forgotten fd hinterest hdata =>
    cases hu
    exact h.mono rfl rfl rfl (fun d hi => update_none hi fd) (fun _ _ hm => hm)
      (List.Sublist.refl _)
  | removing fd ptr hinterest hdata hlocked houtside halive =>
    cases hu
    exact h.started hdata hlocked
  | removingDead fd ptr hdata hdead => cases hu
  | polled batch houtside hnodup hbatch =>
    cases hu
    refine (h.push _ none).mono rfl rfl rfl (fun d hi => ?_) (fun _ _ hm => hm)
      (List.Sublist.refl _)
    have hnone : s.interest d = none := hi
    show (if d ∈ batch then (s.interest d).map _ else s.interest d) = none
    rw [hnone]
    split <;> rfl
  | left frames hframes =>
    cases hu
    exact h.pop hframes
  | dispatched ptr rest frames hframes halive =>
    cases hu
    exact ((h.pop hframes).push rest (some ptr)).mono rfl rfl rfl (fun _ hi => hi)
      (fun _ _ hm => hm) (List.Sublist.refl _)
  | dispatchedDead ptr rest frames hframes hdead => cases hu
  | finished ptr rest frames fd hframes halive hlocked =>
    cases hu
    have hpop : fd ∉ State.locked { s with frames := frames } := by
      intro hl
      apply hlocked
      rw [State.locked, hframes]
      exact hl
    have herase := (h.pop hframes).erase hpop
    rw [← erase_withFrames] at herase
    exact herase.push rest none
  | finishedDead ptr rest frames hframes hdead => cases hu
  | removed fd ptr frames hframes =>
    cases hu
    have hnodup := h.nodup
    rw [State.locked, hframes] at hnodup
    rw [erase_withFrames]
    exact (h.pop hframes).erase (List.nodup_cons.mp hnodup).1
  | thrown rest ptr frames hframes =>
    cases hu
    exact h.pop hframes
  | thrownRemoving fd ptr frames hframes =>
    cases hu
    exact h.pop hframes

theorem locking_init : Locking init where
  owned := ⟨fun _ _ => ⟨nofun, nofun⟩, nofun⟩
  nodup := List.nodup_nil
  removing := nofun

theorem Locking.reachable {t : State} (hr : locking.Reachable (some init) (some t)) :
    Locking t := by
  obtain ⟨as, has⟩ := hr
  let I : Option State → Prop := fun u => ∀ s, u = some s → Locking s
  have hinit : I (some init) := fun s hs => Option.some.inj hs ▸ locking_init
  have hstep : ∀ u a u', I u → locking.step u a = some u' → I u' := by
    rintro u a u' hI hs s rfl
    cases u with
    | none => cases hs
    | some u => exact (hI u rfl).step hs
  exact Machine.invariant_of_step hstep hinit has t rfl

theorem adding_frames (s : State) (adds : List (ℤ × Bool)) :
    (adding s adds).state.frames = s.frames := by
  fun_induction adding s adds with
  | case1 s => rfl
  | case2 s fd refused adds hr ih => exact ih
  | case3 s fd refused adds hr hl => rfl
  | case4 s fd refused adds hr hl r ih => exact ih.trans (asyncPollAdd_frames s fd)

theorem adding_data (s : State) (adds : List (ℤ × Bool)) {d : ℤ} (hd : d ∈ s.locked) :
    (adding s adds).state.data d = s.data d := by
  fun_induction adding s adds with
  | case1 s => rfl
  | case2 s fd refused adds hr ih => exact ih hd
  | case3 s fd refused adds hr hl => rfl
  | case4 s fd refused adds hr hl r ih =>
    have hne : d ≠ fd := by
      rintro rfl
      exact hl hd
    rw [← asyncPollAdd_data_ne (s := s) hne]
    apply ih
    rw [locked_eq (asyncPollAdd_frames s fd)]
    exact hd

theorem adding_registered (s : State) (adds : List (ℤ × Bool)) {d : ℤ} {new : ℕ}
    (h : (d, new) ∈ (adding s adds).registered) : d ∉ s.locked := by
  fun_induction adding s adds with
  | case1 s => cases h
  | case2 s fd refused adds hr ih => exact ih h
  | case3 s fd refused adds hr hl => cases h
  | case4 s fd refused adds hr hl r ih =>
    rcases List.mem_cons.mp h with heq | h
    · cases heq
      exact hl
    · rw [← locked_eq (asyncPollAdd_frames s fd)]
      exact ih h

theorem adding_blocked_iff (h : Locking s) (adds : List (ℤ × Bool)) :
    (adding s adds).blocked = true ↔ ∃ d, (d, false) ∈ adds ∧ d ∈ s.locked := by
  -- a completion waits for ever exactly if it tries to register a locked descriptor
  fun_induction adding s adds with
  | case1 s => simp
  | case2 s fd refused adds hr ih =>
    rw [ih h]
    constructor
    · rintro ⟨d, hd, hl⟩
      exact ⟨d, List.mem_cons_of_mem _ hd, hl⟩
    · rintro ⟨d, hd, hl⟩
      rcases List.mem_cons.mp hd with heq | hd
      · -- a locked descriptor is not in the interest list
        cases heq
        rw [h.interest hl] at hr
        exact absurd hr (by decide)
      · exact ⟨d, hd, hl⟩
  | case3 s fd refused adds hr hl =>
    rw [not_or, Bool.not_eq_true] at hr
    exact iff_of_true rfl ⟨fd, hr.1 ▸ List.mem_cons_self, hl⟩
  | case4 s fd refused adds hr hl r ih =>
    show (adding (s.asyncPollAdd fd) adds).blocked = true ↔ _
    rw [ih (h.added hl), locked_eq (asyncPollAdd_frames s fd)]
    constructor
    · rintro ⟨d, hd, hl'⟩
      exact ⟨d, List.mem_cons_of_mem _ hd, hl'⟩
    · rintro ⟨d, hd, hl'⟩
      rcases List.mem_cons.mp hd with heq | hd
      · cases heq
        exact absurd hl' hl
      · exact ⟨d, hd, hl'⟩

theorem cancel_eq (h : Locking s) {refused : Bool} {react : ℕ → Reaction}
    (hdel : ¬ (refused = true ∨ s.interest fd = none)) (hd : s.data fd = some ptr) :
    s.cancel fd refused react = some
      (if (adding (s.removing fd ptr) (react ptr).adds).blocked then
        ⟨(adding (s.removing fd ptr) (react ptr).adds).state, [(ptr, -ECANCELED)],
          (adding (s.removing fd ptr) (react ptr).adds).registered, .blocked⟩
      else if (react ptr).throws then
        ⟨{ (adding (s.removing fd ptr) (react ptr).adds).state with frames := s.frames },
          [(ptr, -ECANCELED)], (adding (s.removing fd ptr) (react ptr).adds).registered, .threw⟩
      else
        ⟨{ (adding (s.removing fd ptr) (react ptr).adds).state.erase fd with frames := s.frames },
          [(ptr, -ECANCELED)], (adding (s.removing fd ptr) (react ptr).adds).registered,
          .returned⟩) := by
  have hl : fd ∉ s.locked := fun hl => hdel (.inr (h.interest hl))
  have halive : ¬ s.completions ptr = none := by
    rw [(h.owned.iff ptr fd).mpr hd]
    nofun
  unfold State.cancel
  rw [if_neg hdel]
  simp only [hd]
  rw [if_neg hl, if_neg halive]
  split
  · rfl
  · split <;> rfl

/-- The completion is in `m_data`, does not throw, and does not try to register the
descriptor or another one whose removal is under way. -/
def Cancellable (s : State) (fd : ℤ) (react : ℕ → Reaction) : Prop :=
  ∃ ptr, s.data fd = some ptr ∧ (react ptr).throws = false ∧
    ∀ d, (d, false) ∈ (react ptr).adds → d ≠ fd ∧ d ∉ s.locked

theorem locked_removing (s : State) (fd : ℤ) (ptr : ℕ) :
    (s.removing fd ptr).locked = fd :: s.locked := rfl

theorem removing_blocked_iff (h : Locking s) (hd : s.data fd = some ptr) (hl : fd ∉ s.locked)
    (adds : List (ℤ × Bool)) :
    (adding (s.removing fd ptr) adds).blocked = false ↔
      ∀ d, (d, false) ∈ adds → d ≠ fd ∧ d ∉ s.locked := by
  rw [← Bool.not_eq_true, adding_blocked_iff (h.started hd hl), locked_removing]
  constructor
  · intro hnone d hadd
    refine ⟨?_, fun hmem => hnone ⟨d, hadd, List.mem_cons_of_mem _ hmem⟩⟩
    rintro rfl
    exact hnone ⟨d, hadd, List.mem_cons_self⟩
  · rintro hall ⟨d, hadd, hmem⟩
    obtain ⟨hne, hnot⟩ := hall d hadd
    exact (List.mem_cons.mp hmem).elim hne hnot

theorem adding_reachable (ho : s.outside = true) (adds : List (ℤ × Bool))
    (h : (adding s adds).blocked = false) :
    locking.Reachable (some s) (some (adding s adds).state) := by
  fun_induction adding s adds with
  | case1 s => exact Machine.Reachable.refl _ _
  | case2 s fd refused adds hr ih => exact ih ho h
  | case3 s fd refused adds hr hl => cases h
  | case4 s fd refused adds hr hl r ih =>
    have hstep : locking.step (some s) (.add fd refused) = some (some (s.asyncPollAdd fd)) := by
      have hfree : ¬ Blocks s (.add fd refused) := fun hb => hl hb.2.2
      rw [locking_step hfree]
      show (if s.outside = false then none
        else if refused = true ∨ (s.interest fd).isSome then some (some s)
        else some (some (s.asyncPollAdd fd))) = _
      rw [if_neg (Bool.not_eq_false _ ▸ ho), if_neg hr]
    have ho' : (s.asyncPollAdd fd).outside = true := by
      rw [State.outside, asyncPollAdd_frames]
      exact ho
    exact (Machine.Reachable.single hstep).trans (ih ho' h)

theorem locking_remove (ho : s.outside = true) {refused : Bool}
    (hdel : ¬ (refused = true ∨ s.interest fd = none)) :
    locking.step (some s) (.remove fd refused) = s.pollRemove fd := by
  have hfree : ¬ Blocks s (.remove fd refused) := id
  rw [locking_step hfree]
  show (if s.outside = false then none
    else if refused = true ∨ s.interest fd = none then some (some s) else s.pollRemove fd) = _
  rw [if_neg (Bool.not_eq_false _ ▸ ho), if_neg hdel]

theorem pollRemove_started (hd : s.data fd = some ptr) (hl : fd ∉ s.locked)
    (halive : s.completions ptr ≠ none) :
    s.pollRemove fd = some (some (s.removing fd ptr)) := by
  obtain ⟨d, hc⟩ := Option.ne_none_iff_exists'.mp halive
  rw [State.pollRemove, hd]
  dsimp only
  rw [if_neg hl, State.call]
  dsimp only
  rw [hc]
  rfl

/-- A call that does not wait for ever is a run of the service: its removal, what its
completion does, and how that ends. -/
theorem cancel_reachable (ho : s.outside = true) {refused : Bool} {react : ℕ → Reaction}
    {e : Removed} (h : s.cancel fd refused react = some e) (he : e.ending ≠ .blocked) :
    locking.Reachable (some s) (some e.state) := by
  unfold State.cancel at h
  split at h
  · cases h
    exact Machine.Reachable.refl _ _
  rename_i hdel
  split at h
  · rename_i hd
    cases h
    apply Machine.Reachable.single (a := .remove fd refused)
    rw [locking_remove ho hdel, State.pollRemove, hd]
  rename_i ptr hd
  split at h
  · cases h
    exact (he rfl).elim
  rename_i hl
  split at h
  · cases h
  rename_i halive
  have hstart : locking.step (some s) (.remove fd refused) = some (some (s.removing fd ptr)) := by
    rw [locking_remove ho hdel]
    exact pollRemove_started hd hl halive
  have hframes : (adding (s.removing fd ptr) (react ptr).adds).state.frames =
      .removing fd ptr :: s.frames := adding_frames _ _
  dsimp only at h
  split at h
  · cases h
    exact (he rfl).elim
  rename_i hblocked
  have hrun := (Machine.Reachable.single hstart).trans
    (adding_reachable (s := s.removing fd ptr) rfl _ (Bool.not_eq_true _ ▸ hblocked))
  split at h
  · cases h
    refine hrun.tail (a := .throw) ?_
    have hfree : ¬ Blocks (adding (s.removing fd ptr) (react ptr).adds).state .throw := id
    rw [locking_step hfree, step, hframes]
  · cases h
    refine hrun.tail (a := .finish) ?_
    have hfree : ¬ Blocks (adding (s.removing fd ptr) (react ptr).adds).state .finish := id
    rw [locking_step hfree, step, hframes]

/-- In every reachable state: a cancellation that `epoll_ctl` lets through is right exactly
if its completion is still in `m_data`, does not throw, and registers no descriptor whose
entry is locked. -/
theorem cancel_right_iff (hs : locking.Reachable (some init) (some s)) (fd : ℤ) (refused : Bool)
    (react : ℕ → Reaction) :
    CancelRight s fd refused react ↔
      (refused = true ∨ s.interest fd = none) ∨ Cancellable s fd react := by
  have h := Locking.reachable hs
  by_cases hdel : refused = true ∨ s.interest fd = none
  · refine iff_of_true ⟨fun _ => if_pos hdel, fun hn => (hn hdel).elim⟩ (.inl hdel)
  have hl : fd ∉ s.locked := fun hl => hdel (.inr (h.interest hl))
  rw [or_iff_right hdel]
  constructor
  · intro hright
    obtain ⟨ptr, e, hd, he, -, hending, hold, -⟩ := hright.removed hdel
    have hlock : fd ∈ (s.removing fd ptr).locked := List.mem_cons_self
    rw [cancel_eq h hdel hd] at he
    have he' := Option.some.inj he
    split at he'
    · rw [← he'] at hending
      split at hending <;> cases hending
    · rename_i hblocked
      have hfree := (removing_blocked_iff h hd hl _).mp (Bool.not_eq_true _ ▸ hblocked)
      refine ⟨ptr, hd, ?_, hfree⟩
      split at he'
      · -- the old entry is still there
        rw [← he'] at hold
        exact (hold ((adding_data (s.removing fd ptr) _ hlock).trans hd)).elim
      · rename_i hthrows
        exact Bool.not_eq_true _ ▸ hthrows
  · rintro ⟨ptr, hd, hthrows, hfree⟩
    have hblocked := (removing_blocked_iff h hd hl _).mpr hfree
    refine ⟨fun hf => (hdel hf).elim, fun _ => ⟨ptr, _, hd, cancel_eq h hdel hd, ?_⟩⟩
    rw [hblocked, hthrows]
    refine ⟨rfl, rfl, ?_, fun new hnew => ?_⟩
    · show (State.erase _ fd).data fd ≠ some ptr
      rw [erase_data, Function.update_self]
      nofun
    · exact (adding_registered _ _ hnew List.mem_cons_self).elim

/-- The completion registers another descriptor and returns. -/
theorem cancel_right_once : locking.Reachable (some init) (some (init.asyncPollAdd 5)) ∧
    CancelRight (init.asyncPollAdd 5) 5 false fun _ => ⟨[(6, false)], false⟩ := by
  have hs : locking.Reachable (some init) (some (init.asyncPollAdd 5)) := ⟨[.add 5 false], rfl⟩
  refine ⟨hs, (cancel_right_iff hs 5 false _).mpr (.inr ⟨0, rfl, rfl, ?_⟩)⟩
  intro d hd
  obtain ⟨rfl, -⟩ := Prod.mk.inj (List.mem_singleton.mp hd)
  exact ⟨by decide, List.not_mem_nil⟩

/-- A completion that throws stays in `m_data`, and one that registers its descriptor again
waits for ever. -/
theorem cancel_wrong : locking.Reachable (some init) (some (init.asyncPollAdd 5)) ∧
    (¬ CancelRight (init.asyncPollAdd 5) 5 false fun _ => ⟨[], true⟩) ∧
      ¬ CancelRight (init.asyncPollAdd 5) 5 false fun _ => ⟨[(5, false)], false⟩ := by
  refine ⟨⟨[.add 5 false], rfl⟩, fun h => ?_, fun h => ?_⟩
  · obtain ⟨ptr, e, hd, he, -, -, hold, -⟩ := h.removed (by decide)
    cases hd
    cases he
    exact hold rfl
  · obtain ⟨ptr, e, hd, he, -, hending, -⟩ := h.removed (by decide)
    cases hd
    cases he
    cases hending

end BadIo.EpollService
