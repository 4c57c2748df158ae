import BadIo.EpollService.Basic

namespace BadIo.EpollService

/-- Both have the same descriptors, each with the same completion.  A descriptor that is
being removed has an entry of `m_data` only, until its completion has returned. -/
def InStep (s : State) : Prop :=
  ∀ fd, (s.interest fd).map Interest.ptr = if fd ∈ s.locked then none else s.data fd

def StaysInStep : Option State → Prop
  | none => False
  | some s => InStep s

/-- The completion that `fd` is registered with, if there is one, has been called. -/
def Fired (s : State) (fd : ℤ) : Prop := ∀ e, s.interest fd = some e → e.ptr ∈ s.invoked

/-- The tables are in step, and a descriptor whose completion has fired can be registered
again whenever the program has control. -/
structure Correct (s : State) : Prop where
  inStep : InStep s
  again : s.outside = true → ∀ fd, Fired s fd →
    step s (.add fd false) = some (some (s.asyncPollAdd fd))

def Right : Option State → Prop
  | none => False
  | some s => Correct s

/-- `poll` calls no completion, no completion that `poll_remove` has called throws, and the
latter's descriptor is not registered before it returns. -/
def Quiet (s : State) : Act → Prop
  | .add fd refused => refused = false → s.interest fd = none → fd ∉ s.locked
  | .iterate => ∀ ptr rest frames, s.frames ≠ .dispatching (ptr :: rest) none :: frames
  | .throw => ∀ fd ptr frames, s.frames ≠ .removing fd ptr :: frames
  | _ => True

/-- The condition for the tables alone, which a completion that throws through `poll` leaves
in step. -/
def Kept (s : State) : Act → Prop
  | .add fd refused => refused = false → s.interest fd = none → fd ∉ s.locked
  | .finish => ∀ rest running frames, s.frames ≠ .dispatching rest running :: frames
  | .throw => ∀ fd ptr frames, s.frames ≠ .removing fd ptr :: frames
  | _ => True

structure Inv (s : State) : Prop where
  inStep : InStep s
  owned : Owned s
  nodup : s.locked.Nodup
  removing : ∀ fd ptr, .removing fd ptr ∈ s.frames → s.data fd = some ptr
  below : ∀ f ∈ s.frames.tail, f.calling
  coming : ∀ rest frames, s.frames = .dispatching rest none :: frames →
    ∀ ptr ∈ rest, (s.completions ptr).isSome

variable {s : State} {t : Option State} {a : Act}

theorem mem_locked {fd : ℤ} : fd ∈ s.locked ↔ ∃ ptr, .removing fd ptr ∈ s.frames := by
  rw [State.locked, List.mem_filterMap]
  constructor
  · rintro ⟨f, hf, ha⟩
    cases f with
    | dispatching rest running => cases ha
    | removing fd' ptr =>
      cases ha
      exact ⟨ptr, hf⟩
  · rintro ⟨ptr, hf⟩
    exact ⟨_, hf, rfl⟩

theorem Inv.data_of_locked (h : Inv s) {fd : ℤ} (hl : fd ∈ s.locked) : s.data fd ≠ none := by
  obtain ⟨ptr, hf⟩ := mem_locked.mp hl
  rw [h.removing fd ptr hf]
  nofun

theorem Inv.data_of_interest (h : Inv s) {fd : ℤ} {e : Interest} (hi : s.interest fd = some e) :
    fd ∉ s.locked ∧ s.data fd = some e.ptr := by
  have hfd := h.inStep fd
  rw [hi] at hfd
  split at hfd
  · cases hfd
  · rename_i hl
    exact ⟨hl, hfd.symm⟩

theorem Inv.not_forgotten (h : Inv s) {fd : ℤ} (hi : (s.interest fd).isSome) :
    s.data fd ≠ none := by
  obtain ⟨e, he⟩ := Option.isSome_iff_exists.mp hi
  rw [(h.data_of_interest he).2]
  exact Option.some_ne_none e.ptr

theorem Inv.data_of_added (h : Inv s) {fd : ℤ} (hi : s.interest fd = none)
    (hl : fd ∉ s.locked) : s.data fd = none := by
  have hfd := h.inStep fd
  rw [hi, if_neg hl] at hfd
  exact hfd.symm

theorem Inv.calling (h : Inv s) (ho : s.outside = true) : ∀ f ∈ s.frames, f.calling := by
  intro f hf
  cases hs : s.frames with
  | nil => rw [hs] at hf; cases hf
  | cons g frames =>
    rw [hs] at hf
    rcases List.mem_cons.mp hf with rfl | hf'
    · simpa [State.outside, hs] using ho
    · exact h.below f (by rw [hs]; exact hf')

theorem Inv.popped (h : Inv s) {f : Frame} {frames : List Frame} (hf : s.frames = f :: frames) :
    ∀ rest frames', frames ≠ .dispatching rest none :: frames' := by
  rintro rest frames' rfl
  have hc := h.below (.dispatching rest none) (by rw [hf]; exact List.mem_cons_self)
  cases hc

theorem Inv.added (h : Inv s) {fd : ℤ} (hi : s.interest fd = none) (hl : fd ∉ s.locked) :
    Inv (s.asyncPollAdd fd) := by
  have hd := h.data_of_added hi hl
  have howned := h.owned.asyncPollAdd hd
  rw [asyncPollAdd_eq hd] at howned ⊢
  refine ⟨?_, howned, h.nodup, ?_, h.below, ?_⟩
  · intro fd'
    by_cases hfd : fd' = fd
    · subst hfd
      simpa [State.locked] using hl
    · simpa [hfd, State.locked] using h.inStep fd'
  · intro fd' ptr hf
    have hd' := h.removing fd' ptr hf
    have hne : fd' ≠ fd := by
      rintro rfl
      rw [hd] at hd'
      cases hd'
    simpa [hne] using hd'
  · intro rest frames hf ptr hp
    have halive := h.coming rest frames hf ptr hp
    by_cases hn : ptr = s.next
    · simp [hn]
    · simpa [hn] using halive

theorem Inv.removingStarted (h : Inv s) {fd : ℤ} {ptr : ℕ} (hd : s.data fd = some ptr)
    (hl : fd ∉ s.locked) (ho : s.outside = true) :
    Inv { s with
      interest := Function.update s.interest fd none
      frames := .removing fd ptr :: s.frames
      invoked := ptr :: s.invoked } := by
  refine ⟨?_, ⟨h.owned.iff, h.owned.fresh⟩, List.nodup_cons.mpr ⟨hl, h.nodup⟩, ?_,
    h.calling ho, nofun⟩
  · intro fd'
    by_cases hfd : fd' = fd
    · simp [hfd, State.locked, Frame.accessor]
    · simpa [hfd, State.locked, Frame.accessor] using h.inStep fd'
  · intro fd' ptr' hf
    rcases List.mem_cons.mp hf with heq | hf'
    · cases heq
      exact hd
    · exact h.removing fd' ptr' hf'

theorem Inv.polled (h : Inv s) {batch : List ℤ} (ho : s.outside = true) :
    Inv (s.poll batch) := by
  refine ⟨?_, ⟨h.owned.iff, h.owned.fresh⟩, h.nodup, ?_, h.calling ho, ?_⟩
  · intro fd
    have hmap : ((s.poll batch).interest fd).map Interest.ptr =
        (s.interest fd).map Interest.ptr := by
      simp only [State.poll]
      split
      · rw [Option.map_map]
        rfl
      · rfl
    rw [hmap]
    exact h.inStep fd
  · intro fd ptr hf
    rcases List.mem_cons.mp hf with heq | hf'
    · cases heq
    · exact h.removing fd ptr hf'
  · intro rest frames hf ptr hp
    cases hf
    obtain ⟨fd, -, hfd⟩ := List.mem_filterMap.mp hp
    obtain ⟨e, he, rfl⟩ := Option.map_eq_some_iff.mp hfd
    have hc := (h.owned.iff e.ptr fd).mpr (h.data_of_interest he).2
    exact hc ▸ rfl

theorem Inv.left (h : Inv s) {rest : List ℕ} {running : Option ℕ} {frames : List Frame}
    (hf : s.frames = .dispatching rest running :: frames) : Inv { s with frames := frames } := by
  have hlocked : s.locked = frames.filterMap Frame.accessor := by
    rw [State.locked, hf]
    rfl
  refine ⟨?_, ⟨h.owned.iff, h.owned.fresh⟩, ?_, ?_, ?_, ?_⟩
  · intro fd
    have hfd := h.inStep fd
    rw [hlocked] at hfd
    exact hfd
  · have hn := h.nodup
    rw [hlocked] at hn
    exact hn
  · exact fun fd ptr hm => h.removing fd ptr (hf ▸ List.mem_cons_of_mem _ hm)
  · exact fun f hm => h.below f (by rw [hf]; exact List.mem_of_mem_tail hm)
  · exact fun r fs hfs => absurd hfs (h.popped hf r fs)

theorem Inv.dispatched (h : Inv s) {ptr : ℕ} {rest : List ℕ} {frames : List Frame}
    (hf : s.frames = .dispatching (ptr :: rest) none :: frames) :
    Inv { s with
      frames := .dispatching rest (some ptr) :: frames
      invoked := ptr :: s.invoked } := by
  have hpop := h.left hf
  refine ⟨hpop.inStep, ⟨h.owned.iff, h.owned.fresh⟩, hpop.nodup, ?_, ?_, nofun⟩
  · intro fd p hm
    rcases List.mem_cons.mp hm with heq | hm'
    · cases heq
    · exact hpop.removing fd p hm'
  · exact fun f hm => h.below f (by rw [hf]; exact hm)

theorem Inv.removed (h : Inv s) {fd : ℤ} {ptr : ℕ} {frames : List Frame}
    (hf : s.frames = .removing fd ptr :: frames) : Inv { s.erase fd with frames := frames } := by
  have hd := h.removing fd ptr (hf ▸ List.mem_cons_self)
  have howned := h.owned.erase hd
  have hlocked : s.locked = fd :: frames.filterMap Frame.accessor := by
    rw [State.locked, hf]
    rfl
  have hnodup := h.nodup
  rw [hlocked] at hnodup
  obtain ⟨hfd, hnodup⟩ := List.nodup_cons.mp hnodup
  rw [erase_eq hd] at howned ⊢
  refine ⟨?_, ⟨howned.iff, howned.fresh⟩, hnodup, ?_, ?_, ?_⟩
  · intro fd'
    have hin := h.inStep fd'
    rw [hlocked] at hin
    by_cases hne : fd' = fd
    · subst hne
      rw [if_pos List.mem_cons_self] at hin
      simpa [State.locked, hfd] using hin
    · simpa [State.locked, hne] using hin
  · intro fd' ptr' hm
    have hne : fd' ≠ fd := by
      rintro rfl
      exact hfd (List.mem_filterMap.mpr ⟨_, hm, rfl⟩)
    simpa [hne] using h.removing fd' ptr' (hf ▸ List.mem_cons_of_mem _ hm)
  · exact fun f hm => h.below f (by rw [hf]; exact List.mem_of_mem_tail hm)
  · exact fun r fs hfs => absurd hfs (h.popped hf r fs)

theorem step_inv (h : Inv s) (hkept : Kept s a) (ht : Trans s a t) :
    ∃ s', t = some s' ∧ Inv s' := by
  cases ht with
  | notAdded | notRemoved => exact ⟨s, rfl, h⟩
  | added fd hi => exact ⟨_, rfl, h.added hi (hkept rfl hi)⟩
  | forgotten fd hi hd => exact absurd hd (h.not_forgotten hi)
  | removing fd ptr hi hd hl ho halive => exact ⟨_, rfl, h.removingStarted hd hl ho⟩
  | removingDead fd ptr hd hdead =>
    exact nomatch hdead.symm.trans ((h.owned.iff ptr fd).mpr hd)
  | polled batch ho => exact ⟨_, rfl, h.polled ho⟩
  | left frames hf => exact ⟨_, rfl, h.left hf⟩
  | dispatched ptr rest frames hf => exact ⟨_, rfl, h.dispatched hf⟩
  | dispatchedDead ptr rest frames hf hdead =>
    have halive := h.coming (ptr :: rest) frames hf ptr List.mem_cons_self
    rw [hdead] at halive
    cases halive
  | finished ptr rest frames fd hf | finishedDead ptr rest frames hf =>
    exact absurd hf (hkept _ _ _)
  | removed fd ptr frames hf => exact ⟨_, rfl, h.removed hf⟩
  | thrown rest ptr frames hf => exact ⟨_, rfl, h.left hf⟩
  | thrownRemoving fd ptr frames hf => exact absurd hf (hkept _ _ _)

theorem Inv.not_inStep_added (h : Inv s) {fd : ℤ} (hl : fd ∈ s.locked) :
    ¬ InStep (s.asyncPollAdd fd) := by
  -- a descriptor that is registered while it is removed keeps its old completion
  intro hin
  have hfd := hin fd
  obtain ⟨ptr, hd⟩ := Option.ne_none_iff_exists'.mp (h.data_of_locked hl)
  simp only [State.asyncPollAdd, hd, Function.update_self, Option.map_some] at hfd
  rw [if_pos (by exact hl)] at hfd
  cases hfd

theorem Inv.not_inStep_finished (h : Inv s) {ptr : ℕ} {rest : List ℕ} {frames : List Frame}
    {fd : ℤ} (halive : s.completions ptr = some fd) (hl : fd ∉ s.locked) :
    ¬ InStep { s.erase fd with frames := .dispatching rest none :: frames } := by
  -- a completion that has returned to `poll` leaves its descriptor in the interest list
  intro hin
  have hd := (h.owned.iff ptr fd).mp halive
  have hbefore := h.inStep fd
  rw [if_neg hl, hd] at hbefore
  have hfd := hin fd
  rw [erase_eq hd] at hfd
  simp [State.locked, Frame.accessor, hbefore] at hfd

theorem Inv.not_inStep_thrown (h : Inv s) {fd : ℤ} {ptr : ℕ} {frames : List Frame}
    (hf : s.frames = .removing fd ptr :: frames) : ¬ InStep { s with frames := frames } := by
  -- a completion that throws through `poll_remove` stays in `m_data`
  intro hin
  have hlocked : s.locked = fd :: frames.filterMap Frame.accessor := by
    rw [State.locked, hf]
    rfl
  have hnodup := h.nodup
  have hbefore := h.inStep fd
  rw [hlocked] at hnodup hbefore
  rw [if_pos List.mem_cons_self] at hbefore
  have hfd := hin fd
  rw [State.locked, if_neg (List.nodup_cons.mp hnodup).1] at hfd
  have hd := h.removing fd ptr (hf ▸ List.mem_cons_self)
  exact nomatch hd.symm.trans (hfd.symm.trans hbefore)

theorem kept_of_staysInStep (h : Inv s) (hr : StaysInStep t) (ht : Trans s a t) : Kept s a := by
  cases ht with
  | notAdded fd refused hn =>
    rintro rfl hi
    rw [hi] at hn
    rcases hn with hn | hn <;> cases hn
  | added fd hi => exact fun _ _ hl => h.not_inStep_added hl hr
  | finished ptr rest frames fd hf halive hl =>
    exact absurd hr (h.not_inStep_finished halive hl)
  | finishedDead ptr rest frames hf => exact hr.elim
  | removed fd ptr frames hf =>
    intro rest running frames' hf'
    cases hf.symm.trans hf'
  | thrown rest ptr frames hf =>
    intro fd ptr' frames' hf'
    cases hf.symm.trans hf'
  | thrownRemoving fd ptr frames hf => exact absurd hr (h.not_inStep_thrown hf)
  | _ => trivial

def OptionInv : Option State → Prop
  | none => False
  | some s => Inv s

theorem init_inv : Inv init :=
  ⟨fun _ => rfl, ⟨fun _ _ => ⟨nofun, nofun⟩, nofun⟩, List.nodup_nil, nofun, nofun, nofun⟩

/-- The two tables are in step after every step of a run exactly if every step is one that
keeps them so. -/
theorem inStep_iff (as : List Act) :
    machine.Along (fun _ _ t => StaysInStep t) (some init) as ↔
      machine.Along (fun s a _ => ∀ s', s = some s' → Kept s' a) (some init) as := by
  refine Machine.along_iff_along (I := OptionInv) (A := fun _ _ _ => True) ?_ ?_ init_inv
    (Machine.along_true _ as)
  · intro s a t hI _ hs
    cases s with
    | none => exact hI.elim
    | some s =>
      constructor
      · intro hr s' hs'
        cases hs'
        exact kept_of_staysInStep hI hr (step_trans hs)
      · intro hkept
        obtain ⟨s', rfl, hs'⟩ := step_inv hI (hkept s rfl) (step_trans hs)
        exact hs'.inStep
  · intro s a t hI _ hkept hs
    cases s with
    | none => exact hI.elim
    | some s =>
      obtain ⟨s', rfl, hs'⟩ := step_inv hI (hkept s rfl) (step_trans hs)
      exact hs'

/-- Besides, no entry of the interest list has a completion that has been called. -/
structure Unfired (s : State) : Prop where
  inv : Inv s
  interest : ∀ fd e, s.interest fd = some e → e.ptr ∉ s.invoked
  invoked : ∀ ptr ∈ s.invoked, ptr < s.next
  coming : ∀ rest frames, s.frames = .dispatching rest none :: frames →
    ∀ ptr ∈ rest, ∃ fd e, s.interest fd = some e ∧ e.ptr = ptr
  running : ∀ rest running, .dispatching rest running ∈ s.frames → running = none

theorem Unfired.correct (h : Unfired s) : Correct s := by
  refine ⟨h.inv.inStep, fun ho fd hfired => ?_⟩
  have hi : s.interest fd = none := by
    by_contra hne
    obtain ⟨e, he⟩ := Option.ne_none_iff_exists'.mp hne
    exact h.interest fd e he (hfired e he)
  simp [step, ho, hi]

theorem Unfired.kept (h : Unfired s) (hq : Quiet s a) (ht : Trans s a t) : Kept s a := by
  cases ht with
  | finished ptr rest frames fd hf | finishedDead ptr rest frames hf =>
    cases h.running rest (some ptr) (hf ▸ List.mem_cons_self)
  | removed fd ptr frames hf =>
    intro rest running frames' hf'
    cases hf.symm.trans hf'
  | notAdded | added | thrown | thrownRemoving => exact hq
  | _ => trivial

theorem Unfired.added (h : Unfired s) {fd : ℤ} (hi : s.interest fd = none) (hl : fd ∉ s.locked) :
    Unfired (s.asyncPollAdd fd) := by
  have hinv := h.inv.added hi hl
  rw [asyncPollAdd_eq (h.inv.data_of_added hi hl)] at hinv ⊢
  refine ⟨hinv, ?_, fun ptr hp => Nat.lt_succ_of_lt (h.invoked ptr hp), ?_, h.running⟩
  · intro fd' e he
    by_cases hfd : fd' = fd
    · subst hfd
      obtain rfl : ⟨s.next, true⟩ = e := by simpa using he
      exact fun hp => Nat.lt_irrefl _ (h.invoked s.next hp)
    · exact h.interest fd' e (by simpa [hfd] using he)
  · intro rest frames hf ptr hp
    obtain ⟨fd', e, he, rfl⟩ := h.coming rest frames hf ptr hp
    have hne : fd' ≠ fd := by
      rintro rfl
      exact nomatch hi.symm.trans he
    exact ⟨fd', e, by simpa [hne] using he, rfl⟩

theorem Unfired.removingStarted (h : Unfired s) {fd : ℤ} {ptr : ℕ} (hd : s.data fd = some ptr)
    (hl : fd ∉ s.locked) (ho : s.outside = true) :
    Unfired { s with
      interest := Function.update s.interest fd none
      frames := .removing fd ptr :: s.frames
      invoked := ptr :: s.invoked } := by
  refine ⟨h.inv.removingStarted hd hl ho, ?_, ?_, nofun, ?_⟩
  · intro fd' e he
    have hne : fd' ≠ fd := by
      rintro rfl
      simp at he
    have he' : s.interest fd' = some e := by simpa [hne] using he
    intro hp
    rcases List.mem_cons.mp hp with hptr | hp
    · -- the two descriptors would own one completion
      have hd' := (h.inv.data_of_interest he').2
      rw [hptr] at hd'
      exact hne (h.inv.owned.inj hd' hd)
    · exact h.interest fd' e he' hp
  · intro p hp
    rcases List.mem_cons.mp hp with rfl | hp
    · exact h.inv.owned.fresh p fd ((h.inv.owned.iff p fd).mpr hd)
    · exact h.invoked p hp
  · intro rest running hf
    rcases List.mem_cons.mp hf with hf | hf
    · cases hf
    · exact h.running rest running hf

theorem Unfired.polled (h : Unfired s) {batch : List ℤ} (ho : s.outside = true) :
    Unfired (s.poll batch) := by
  have hold : ∀ fd e, (s.poll batch).interest fd = some e →
      ∃ e', s.interest fd = some e' ∧ e'.ptr = e.ptr := by
    intro fd e he
    simp only [State.poll] at he
    split at he
    · obtain ⟨e', he', rfl⟩ := Option.map_eq_some_iff.mp he
      exact ⟨e', he', rfl⟩
    · exact ⟨e, he, rfl⟩
  refine ⟨h.inv.polled ho, ?_, h.invoked, ?_, ?_⟩
  · intro fd e he
    obtain ⟨e', he', hptr⟩ := hold fd e he
    rw [← hptr]
    exact h.interest fd e' he'
  · intro rest frames hf ptr hp
    cases hf
    obtain ⟨fd, hfd, hmap⟩ := List.mem_filterMap.mp hp
    obtain ⟨e, he, rfl⟩ := Option.map_eq_some_iff.mp hmap
    refine ⟨fd, { e with armed := false }, ?_, rfl⟩
    simp [State.poll, hfd, he]
  · intro rest running hf
    rcases List.mem_cons.mp hf with hf | hf
    · cases hf
      rfl
    · exact h.running rest running hf

theorem Unfired.popped (h : Unfired s) {s' : State} {f : Frame} (hinv : Inv s')
    (hf : s.frames = f :: s'.frames) (hinterest : s'.interest = s.interest)
    (hinvoked : s'.invoked = s.invoked) (hnext : s'.next = s.next) : Unfired s' where
  inv := hinv
  interest := by
    rw [hinterest, hinvoked]
    exact h.interest
  invoked := by
    rw [hinvoked, hnext]
    exact h.invoked
  coming rest frames hf' := absurd hf' (h.inv.popped hf rest frames)
  running rest running hm := h.running rest running (hf ▸ List.mem_cons_of_mem _ hm)

theorem erase_unchanged (s : State) (fd : ℤ) :
    (s.erase fd).interest = s.interest ∧ (s.erase fd).invoked = s.invoked ∧
      (s.erase fd).next = s.next := by
  unfold State.erase
  split
  · exact ⟨rfl, rfl, rfl⟩
  · exact ⟨rfl, rfl, rfl⟩

theorem step_unfired (h : Unfired s) (hq : Quiet s a) (ht : Trans s a t) :
    ∃ s', t = some s' ∧ Unfired s' := by
  obtain ⟨s', rfl, hinv⟩ := step_inv h.inv (h.kept hq ht) ht
  refine ⟨s', rfl, ?_⟩
  cases ht with
  | notAdded | notRemoved => exact h
  | added fd hi => exact h.added hi (hq rfl hi)
  | forgotten fd hi hd => exact absurd hd (h.inv.not_forgotten hi)
  | removing fd ptr hi hd hl ho halive => exact h.removingStarted hd hl ho
  | polled batch ho => exact h.polled ho
  | left frames hf => exact h.popped hinv hf rfl rfl rfl
  | dispatched ptr rest frames hf => exact absurd hf (hq ptr rest frames)
  | finished ptr rest frames fd hf => cases h.running rest (some ptr) (hf ▸ List.mem_cons_self)
  | removed fd ptr frames hf =>
    obtain ⟨hinterest, hinvoked, hnext⟩ := erase_unchanged s fd
    exact h.popped hinv hf hinterest hinvoked hnext
  | thrown rest ptr frames hf => exact h.popped hinv hf rfl rfl rfl
  | thrownRemoving fd ptr frames hf => exact h.popped hinv hf rfl rfl rfl

theorem Unfired.not_correct_dispatched (h : Unfired s) {ptr : ℕ} {rest : List ℕ}
    {frames : List Frame} (hf : s.frames = .dispatching (ptr :: rest) none :: frames) :
    ¬ Correct { s with
      frames := .dispatching rest (some ptr) :: frames
      invoked := ptr :: s.invoked } := by
  -- a completion that `poll` calls finds its own descriptor still registered
  intro hc
  obtain ⟨fd, e, he, rfl⟩ := h.coming (ptr :: rest) frames hf ptr List.mem_cons_self
  have hagain := hc.again rfl fd fun e' he' => by
    obtain rfl := Option.some.inj (he.symm.trans he')
    exact List.mem_cons_self
  have hstays : step { s with
      frames := .dispatching rest (some e.ptr) :: frames
      invoked := e.ptr :: s.invoked } (.add fd false) = some (some { s with
      frames := .dispatching rest (some e.ptr) :: frames
      invoked := e.ptr :: s.invoked }) := by
    simp [step, State.outside, Frame.calling, he]
  have hnext := congrArg State.next (Option.some.inj (Option.some.inj (hstays.symm.trans hagain)))
  simp only [State.asyncPollAdd] at hnext
  split at hnext
  · exact Nat.ne_of_lt (Nat.lt_succ_self _) hnext
  · exact Nat.ne_of_lt (Nat.lt_succ_self _) hnext

theorem quiet_of_right (h : Unfired s) (hr : Right t) (ht : Trans s a t) : Quiet s a := by
  have hkept : Kept s a := by
    refine kept_of_staysInStep h.inv ?_ ht
    cases t with
    | none => exact hr
    | some s' => exact hr.inStep
  cases ht with
  | left frames hf =>
    intro ptr rest frames' hf'
    cases hf.symm.trans hf'
  | dispatched ptr rest frames hf => exact absurd hr (h.not_correct_dispatched hf)
  | dispatchedDead => exact hr.elim
  | notAdded | added | thrown | thrownRemoving => exact hkept
  | _ => trivial

def OptionUnfired : Option State → Prop
  | none => False
  | some s => Unfired s

theorem init_unfired : Unfired init := ⟨init_inv, nofun, nofun, nofun, nofun⟩

/-- The tables are in step and a fired descriptor can be registered again, after every step
of a run, exactly if every step is a quiet one. -/
theorem registrations_right_iff (as : List Act) :
    machine.Along (fun _ _ t => Right t) (some init) as ↔
      machine.Along (fun s a _ => ∀ s', s = some s' → Quiet s' a) (some init) as := by
  refine Machine.along_iff_along (I := OptionUnfired) (A := fun _ _ _ => True) ?_ ?_ init_unfired
    (Machine.along_true _ as)
  · intro s a t hI _ hs
    cases s with
    | none => exact hI.elim
    | some s =>
      constructor
      · intro hr s' hs'
        cases hs'
        exact quiet_of_right hI hr (step_trans hs)
      · intro hquiet
        obtain ⟨s', rfl, hs'⟩ := step_unfired hI (hquiet s rfl) (step_trans hs)
        exact hs'.correct
  · intro s a t hI _ hquiet hs
    cases s with
    | none => exact hI.elim
    | some s =>
      obtain ⟨s', rfl, hs'⟩ := step_unfired hI (hquiet s rfl) (step_trans hs)
      exact hs'

/-- A completion fires, and its descriptor cannot be registered again: not after it has
returned, where the tables differ besides, and not after it has thrown, where they do not. -/
theorem fired_descriptor_stays :
    (¬ machine.Along (fun _ _ t => Right t) (some init)
      [.add 3 false, .poll [3], .iterate, .finish, .iterate, .add 3 false]) ∧
    (¬ machine.Along (fun _ _ t => Right t) (some init)
      [.add 3 false, .poll [3], .iterate, .throw, .add 3 false]) ∧
    (∃ s, machine.run (some init) [.add 3 false, .poll [3], .iterate, .finish, .iterate] =
        some (some s) ∧ s.data 3 = none ∧ s.interest 3 = some ⟨0, false⟩ ∧
      machine.run (some init)
        [.add 3 false, .poll [3], .iterate, .finish, .iterate, .add 3 false] = some (some s)) ∧
    ∃ s, machine.run (some init) [.add 3 false, .poll [3], .iterate, .throw] = some (some s) ∧
      s.data 3 = some 0 ∧ s.interest 3 = some ⟨0, false⟩ ∧
      machine.run (some init) [.add 3 false, .poll [3], .iterate, .throw, .add 3 false] =
        some (some s) := by
  refine ⟨fun h => ?_, fun h => ?_, ⟨_, rfl, rfl, rfl, rfl⟩, _, rfl, rfl, rfl, rfl⟩
  · have hin := (h.nth 3 rfl rfl rfl).inStep 3
    cases hin
  · -- the completion has fired, and the program has control again
    have hagain := (h.nth 3 rfl rfl rfl).again rfl 3 fun e he => by
      cases he
      exact List.mem_cons_self
    have hnext := congrArg (fun t => t.map fun s => s.map State.next) hagain
    cases hnext

end BadIo.EpollService
