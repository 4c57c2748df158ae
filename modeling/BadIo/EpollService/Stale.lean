import Mathlib.Data.List.Nodup
import BadIo.EpollService.Basic

namespace BadIo.EpollService

def Frame.held : Frame → Option ℕ
  | .dispatching _ running => running
  | .removing _ ptr => some ptr

def Frame.coming : Frame → List ℕ
  | .dispatching rest _ => rest
  | .removing _ _ => []

def State.held (s : State) : List ℕ := s.frames.filterMap Frame.held

def State.coming (s : State) : List ℕ := s.frames.flatMap Frame.coming

/-- Only completions that `m_data` owned have been called or read, each called once at
most. -/
def Sound : Option State → Prop
  | none => False
  | some s => s.invoked.Nodup

/-- The calls that cannot make a pointer stale or have a completion called again: an entry
of a batch that is not armed, which epoll does not report, has a completion that was not
called yet; a descriptor is removed only while its completion has neither been called nor
is still to come; and one is registered only when `m_data` has no entry for it. -/
def Harmless (s : State) : Act → Prop
  | .poll batch => ∀ fd ∈ batch, ∀ e, s.interest fd = some e → e.armed = true ∨
      (s.data fd = some e.ptr ∧ e.ptr ∉ s.invoked ∧ e.ptr ∉ s.coming)
  | .remove fd refused => refused = false → (s.interest fd).isSome → ∀ ptr, s.data fd = some ptr →
      ptr ∉ s.invoked ∧ ptr ∉ s.coming
  | .add fd refused => refused = false → s.interest fd = none → s.data fd = none
  | _ => True

structure Live (s : State) : Prop where
  owned : Owned s
  next : ∀ ptr ∈ s.invoked, ptr < s.next
  nodup : s.invoked.Nodup
  held_nodup : s.held.Nodup
  held : ∀ ptr ∈ s.held, ptr ∈ s.invoked ∧ (s.completions ptr).isSome
  coming_nodup : s.coming.Nodup
  coming : ∀ ptr ∈ s.coming, ptr ∉ s.invoked ∧ (s.completions ptr).isSome
  removing : ∀ fd ptr, .removing fd ptr ∈ s.frames → s.completions ptr = some fd
  armed : ∀ fd ptr, s.interest fd = some ⟨ptr, true⟩ →
    s.data fd = some ptr ∧ ptr ∉ s.invoked ∧ ptr ∉ s.coming

variable {s : State} {t : Option State} {a : Act}

theorem Live.lt_next (h : Live s) {ptr : ℕ} (hp : (s.completions ptr).isSome) : ptr < s.next := by
  obtain ⟨fd, hfd⟩ := Option.isSome_iff_exists.mp hp
  exact h.owned.fresh ptr fd hfd

theorem Live.fresh (h : Live s) {batch : List ℤ} (hharm : Harmless s (.poll batch)) {fd : ℤ}
    {e : Interest} (hfd : fd ∈ batch) (he : s.interest fd = some e) :
    s.data fd = some e.ptr ∧ e.ptr ∉ s.invoked ∧ e.ptr ∉ s.coming := by
  rcases hharm fd hfd e he with harmed | hfresh
  · obtain ⟨ptr, armed⟩ := e
    cases harmed
    exact h.armed fd ptr he
  · exact hfresh

theorem Live.added (h : Live s) {fd : ℤ} (hd : s.data fd = none) : Live (s.asyncPollAdd fd) := by
  have howned := h.owned.asyncPollAdd hd
  have hnext : s.next ∉ s.invoked := fun hm => Nat.lt_irrefl _ (h.next _ hm)
  have hcoming : s.next ∉ s.coming := fun hm => Nat.lt_irrefl _ (h.lt_next (h.coming _ hm).2)
  rw [asyncPollAdd_eq hd] at howned ⊢
  have halive : ∀ ptr, (s.completions ptr).isSome →
      (Function.update s.completions s.next (some fd) ptr).isSome := by
    intro ptr hp
    by_cases hn : ptr = s.next
    · simp [hn]
    · simpa [hn] using hp
  refine ⟨howned, fun p hp => Nat.lt_succ_of_lt (h.next p hp), h.nodup, h.held_nodup, ?_,
    h.coming_nodup, ?_, ?_, ?_⟩
  · exact fun p hp => ⟨(h.held p hp).1, halive p (h.held p hp).2⟩
  · exact fun p hp => ⟨(h.coming p hp).1, halive p (h.coming p hp).2⟩
  · intro fd' p hf
    have hc := h.removing fd' p hf
    have hn : p ≠ s.next := by
      rintro rfl
      exact nomatch hc.symm.trans h.owned.next
    simpa [hn] using hc
  · intro fd' p hi
    by_cases hne : fd' = fd
    · subst hne
      simp only [Function.update_self, Option.some.injEq, Interest.mk.injEq, and_true] at hi
      subst hi
      exact ⟨Function.update_self .., hnext, hcoming⟩
    · simp only [Function.update_of_ne hne] at hi ⊢
      exact h.armed fd' p hi

theorem Live.forgotten (h : Live s) (fd : ℤ) :
    Live { s with interest := Function.update s.interest fd none } := by
  refine ⟨⟨h.owned.iff, h.owned.fresh⟩, h.next, h.nodup, h.held_nodup, h.held, h.coming_nodup,
    h.coming, h.removing, fun fd' ptr hi => ?_⟩
  by_cases hne : fd' = fd
  · simp [hne] at hi
  · simp only [Function.update_of_ne hne] at hi
    exact h.armed fd' ptr hi

theorem Live.called (h : Live s) {ptr : ℕ} {frames : List Frame}
    (halive : (s.completions ptr).isSome) (hinvoked : ptr ∉ s.invoked)
    (hheld : frames.filterMap Frame.held = ptr :: s.held)
    (hsub : (frames.flatMap Frame.coming).Sublist s.coming)
    (hptr : ptr ∉ frames.flatMap Frame.coming)
    (hremoving : ∀ fd ptr, .removing fd ptr ∈ frames → s.completions ptr = some fd)
    (harmed : ∀ fd, s.interest fd ≠ some ⟨ptr, true⟩) :
    Live { s with frames := frames, invoked := ptr :: s.invoked } := by
  refine ⟨⟨h.owned.iff, h.owned.fresh⟩, ?_, List.nodup_cons.mpr ⟨hinvoked, h.nodup⟩, ?_, ?_,
    h.coming_nodup.sublist hsub, ?_, hremoving, ?_⟩
  · intro p hp
    rcases List.mem_cons.mp hp with rfl | hp'
    · exact h.lt_next halive
    · exact h.next p hp'
  · change (frames.filterMap Frame.held).Nodup
    rw [hheld]
    exact List.nodup_cons.mpr ⟨fun hm => hinvoked (h.held ptr hm).1, h.held_nodup⟩
  · intro p hp
    change p ∈ frames.filterMap Frame.held at hp
    rw [hheld] at hp
    rcases List.mem_cons.mp hp with rfl | hp'
    · exact ⟨List.mem_cons_self, halive⟩
    · exact ⟨List.mem_cons_of_mem _ (h.held p hp').1, (h.held p hp').2⟩
  · intro p hp
    obtain ⟨hnew, hp'⟩ := h.coming p (hsub.subset hp)
    refine ⟨fun hm => ?_, hp'⟩
    rcases List.mem_cons.mp hm with rfl | hm'
    · exact hptr hp
    · exact hnew hm'
  · intro fd p hi
    obtain ⟨hd, hnew, hn⟩ := h.armed fd p hi
    refine ⟨hd, fun hm => ?_, fun hm => hn (hsub.subset hm)⟩
    rcases List.mem_cons.mp hm with rfl | hm'
    · exact harmed fd hi
    · exact hnew hm'

theorem Live.removingStarted (h : Live s) {fd : ℤ} {ptr : ℕ} (hd : s.data fd = some ptr)
    (hinvoked : ptr ∉ s.invoked) (hcoming : ptr ∉ s.coming) :
    Live { s with
      interest := Function.update s.interest fd none
      frames := .removing fd ptr :: s.frames
      invoked := ptr :: s.invoked } := by
  have hf := h.forgotten fd
  have hc := (h.owned.iff ptr fd).mpr hd
  refine hf.called (hc ▸ rfl) hinvoked rfl (List.Sublist.refl _) hcoming ?_ ?_
  · intro fd' p hm
    rcases List.mem_cons.mp hm with heq | hm'
    · cases heq
      exact hc
    · exact h.removing fd' p hm'
  · intro fd' hi
    -- the entry of this completion has just left the interest list
    have hfd : fd' = fd := h.owned.inj (hf.armed fd' ptr hi).1 hd
    simp [hfd] at hi

def State.reported (s : State) (batch : List ℤ) : List ℕ :=
  batch.filterMap fun fd => (s.interest fd).map Interest.ptr

theorem Live.mem_reported (h : Live s) {batch : List ℤ} (hharm : Harmless s (.poll batch))
    {ptr : ℕ} (hm : ptr ∈ s.reported batch) :
    ∃ fd ∈ batch, s.data fd = some ptr ∧ ptr ∉ s.invoked ∧ ptr ∉ s.coming := by
  obtain ⟨fd, hfd, hmap⟩ := List.mem_filterMap.mp hm
  obtain ⟨e, he, rfl⟩ := Option.map_eq_some_iff.mp hmap
  exact ⟨fd, hfd, h.fresh hharm hfd he⟩

theorem Live.reported_nodup (h : Live s) {batch : List ℤ} (hharm : Harmless s (.poll batch))
    (hnodup : batch.Nodup) : (s.reported batch).Nodup := by
  refine List.pairwise_filterMap.mpr (List.Pairwise.imp_of_mem ?_ hnodup)
  intro fd fd' hfd hfd' hne ptr hp ptr' hp'
  obtain ⟨e, he, rfl⟩ := Option.map_eq_some_iff.mp hp
  obtain ⟨e', he', rfl⟩ := Option.map_eq_some_iff.mp hp'
  intro heq
  have hd := (h.fresh hharm hfd he).1
  rw [heq] at hd
  exact hne (h.owned.inj hd (h.fresh hharm hfd' he').1)

theorem poll_armed {batch : List ℤ} {fd : ℤ} {ptr : ℕ}
    (hi : (s.poll batch).interest fd = some ⟨ptr, true⟩) :
    fd ∉ batch ∧ s.interest fd = some ⟨ptr, true⟩ := by
  simp only [State.poll] at hi
  split at hi
  · obtain ⟨e, -, he⟩ := Option.map_eq_some_iff.mp hi
    cases he
  · rename_i hfd
    exact ⟨hfd, hi⟩

theorem Live.polled (h : Live s) {batch : List ℤ} (hnodup : batch.Nodup)
    (hharm : Harmless s (.poll batch)) : Live (s.poll batch) := by
  have hcoming : (s.poll batch).coming = s.reported batch ++ s.coming := rfl
  refine ⟨⟨h.owned.iff, h.owned.fresh⟩, h.next, h.nodup, h.held_nodup, h.held, ?_, ?_, ?_, ?_⟩
  · rw [hcoming]
    refine List.Nodup.append (h.reported_nodup hharm hnodup) h.coming_nodup ?_
    intro ptr hp hp'
    obtain ⟨fd, -, -, -, hn⟩ := h.mem_reported hharm hp
    exact hn hp'
  · intro ptr hp
    rw [hcoming] at hp
    rcases List.mem_append.mp hp with hp' | hp'
    · obtain ⟨fd, -, hd, hinvoked, -⟩ := h.mem_reported hharm hp'
      have hc := (h.owned.iff ptr fd).mpr hd
      exact ⟨hinvoked, hc ▸ rfl⟩
    · exact h.coming ptr hp'
  · intro fd ptr hm
    rcases List.mem_cons.mp hm with heq | hm'
    · cases heq
    · exact h.removing fd ptr hm'
  · intro fd ptr hi
    obtain ⟨hfd, hi'⟩ := poll_armed hi
    obtain ⟨hd, hinvoked, hn⟩ := h.armed fd ptr hi'
    refine ⟨hd, hinvoked, fun hm => ?_⟩
    rw [hcoming] at hm
    rcases List.mem_append.mp hm with hm' | hm'
    · obtain ⟨fd', hfd', hd', -⟩ := h.mem_reported hharm hm'
      exact hfd (h.owned.inj hd' hd ▸ hfd')
    · exact hn hm'

theorem Live.pop (h : Live s) {f : Frame} {frames : List Frame} (hf : s.frames = f :: frames) :
    Live { s with frames := frames } := by
  have hheld : s.held = f.held.toList ++ frames.filterMap Frame.held := by
    rw [State.held, hf, List.filterMap_cons]
    cases f.held <;> rfl
  have hcoming : s.coming = f.coming ++ frames.flatMap Frame.coming := by
    rw [State.coming, hf, List.flatMap_cons]
  have hnodup := h.held_nodup
  have hnodup' := h.coming_nodup
  rw [hheld] at hnodup
  rw [hcoming] at hnodup'
  refine ⟨⟨h.owned.iff, h.owned.fresh⟩, h.next, h.nodup, (List.nodup_append.mp hnodup).2.1, ?_,
    (List.nodup_append.mp hnodup').2.1, ?_, ?_, ?_⟩
  · exact fun ptr hp => h.held ptr (hheld ▸ List.mem_append_right _ hp)
  · exact fun ptr hp => h.coming ptr (hcoming ▸ List.mem_append_right _ hp)
  · exact fun fd ptr hm => h.removing fd ptr (hf ▸ List.mem_cons_of_mem _ hm)
  · intro fd ptr hi
    obtain ⟨hd, hinvoked, hn⟩ := h.armed fd ptr hi
    exact ⟨hd, hinvoked, fun hm => hn (hcoming ▸ List.mem_append_right _ hm)⟩

theorem Live.dispatched (h : Live s) {ptr : ℕ} {rest : List ℕ} {frames : List Frame}
    (hf : s.frames = .dispatching (ptr :: rest) none :: frames) :
    Live { s with
      frames := .dispatching rest (some ptr) :: frames
      invoked := ptr :: s.invoked } := by
  have hheld : s.held = frames.filterMap Frame.held := by
    rw [State.held, hf]
    rfl
  have hcoming : s.coming = ptr :: (rest ++ frames.flatMap Frame.coming) := by
    rw [State.coming, hf]
    rfl
  have hmem : ptr ∈ s.coming := hcoming ▸ List.mem_cons_self
  have hnodup := h.coming_nodup
  rw [hcoming] at hnodup
  refine h.called (h.coming ptr hmem).2 (h.coming ptr hmem).1 ?_ ?_
    (List.nodup_cons.mp hnodup).1 ?_ ?_
  · rw [hheld]
    rfl
  · rw [hcoming]
    exact List.sublist_cons_self _ _
  · intro fd p hm
    rcases List.mem_cons.mp hm with heq | hm'
    · cases heq
    · exact h.removing fd p (hf ▸ List.mem_cons_of_mem _ hm')
  · exact fun fd hi => (h.armed fd ptr hi).2.2 hmem

theorem Live.erased (h : Live s) {fd : ℤ} {ptr : ℕ} {frames : List Frame}
    (hc : s.completions ptr = some fd) (hheld : s.held = ptr :: frames.filterMap Frame.held)
    (hcoming : s.coming = frames.flatMap Frame.coming)
    (hsub : ∀ fd ptr, .removing fd ptr ∈ frames → .removing fd ptr ∈ s.frames) :
    Live { s.erase fd with frames := frames } := by
  have hd := (h.owned.iff ptr fd).mp hc
  have howned := h.owned.erase hd
  have hnodup := h.held_nodup
  rw [hheld] at hnodup
  obtain ⟨hptr, hnodup⟩ := List.nodup_cons.mp hnodup
  have hinvoked := (h.held ptr (hheld ▸ List.mem_cons_self)).1
  have halive : ∀ p, p ≠ ptr → (s.completions p).isSome →
      (Function.update s.completions ptr none p).isSome := by
    intro p hp hs
    simpa [hp] using hs
  rw [erase_eq hd] at howned ⊢
  refine ⟨⟨howned.iff, howned.fresh⟩, h.next, h.nodup, hnodup, ?_, ?_, ?_, ?_, ?_⟩
  · intro p hp
    have hp' := h.held p (hheld ▸ List.mem_cons_of_mem _ hp)
    exact ⟨hp'.1, halive p (fun he => hptr (he ▸ hp)) hp'.2⟩
  · have hn := h.coming_nodup
    rw [hcoming] at hn
    exact hn
  · intro p hp
    have hp' := h.coming p (hcoming ▸ hp)
    exact ⟨hp'.1, halive p (fun he => hp'.1 (he ▸ hinvoked)) hp'.2⟩
  · intro fd' p hm
    have hne : p ≠ ptr := by
      rintro rfl
      exact hptr (List.mem_filterMap.mpr ⟨_, hm, rfl⟩)
    simpa [hne] using h.removing fd' p (hsub fd' p hm)
  · intro fd' p hi
    obtain ⟨hd', hinvoked', hn⟩ := h.armed fd' p hi
    have hne : fd' ≠ fd := by
      rintro rfl
      exact hinvoked' (Option.some.inj (hd.symm.trans hd') ▸ hinvoked)
    exact ⟨by simpa [hne] using hd', hinvoked', fun hm => hn (hcoming ▸ hm)⟩

theorem step_live (h : Live s) (hharm : Harmless s a) (ht : Trans s a t) :
    ∃ s', t = some s' ∧ Live s' := by
  cases ht with
  | notAdded | notRemoved => exact ⟨s, rfl, h⟩
  | added fd hi => exact ⟨_, rfl, h.added (hharm rfl hi)⟩
  | forgotten fd hi hd => exact ⟨_, rfl, h.forgotten fd⟩
  | removing fd ptr hi hd hl ho halive =>
    obtain ⟨hinvoked, hcoming⟩ := hharm rfl hi ptr hd
    exact ⟨_, rfl, h.removingStarted hd hinvoked hcoming⟩
  | removingDead fd ptr hd hdead =>
    exact nomatch hdead.symm.trans ((h.owned.iff ptr fd).mpr hd)
  | polled batch ho hnodup => exact ⟨_, rfl, h.polled hnodup hharm⟩
  | left frames hf => exact ⟨_, rfl, h.pop hf⟩
  | dispatched ptr rest frames hf => exact ⟨_, rfl, h.dispatched hf⟩
  | dispatchedDead ptr rest frames hf hdead =>
    have hm : ptr ∈ s.coming := by
      rw [State.coming, hf]
      exact List.mem_cons_self
    have halive := (h.coming ptr hm).2
    rw [hdead] at halive
    cases halive
  | finished ptr rest frames fd hf halive hl =>
    refine ⟨_, rfl, h.erased halive ?_ ?_ ?_⟩
    · rw [State.held, hf]
      rfl
    · rw [State.coming, hf]
      rfl
    · intro fd' p hm
      rw [hf]
      rcases List.mem_cons.mp hm with heq | hm'
      · cases heq
      · exact List.mem_cons_of_mem _ hm'
  | finishedDead ptr rest frames hf hdead =>
    have hm : ptr ∈ s.held := by
      rw [State.held, hf]
      exact List.mem_cons_self
    have halive := (h.held ptr hm).2
    rw [hdead] at halive
    cases halive
  | removed fd ptr frames hf =>
    refine ⟨_, rfl, h.erased (h.removing fd ptr (hf ▸ List.mem_cons_self)) ?_ ?_ ?_⟩
    · rw [State.held, hf]
      rfl
    · rw [State.coming, hf]
      rfl
    · exact fun fd' p hm => hf ▸ List.mem_cons_of_mem _ hm
  | thrown rest ptr frames hf => exact ⟨_, rfl, h.pop hf⟩
  | thrownRemoving fd ptr frames hf => exact ⟨_, rfl, h.pop hf⟩

def OptionLive : Option State → Prop
  | none => False
  | some s => Live s

theorem init_live : Live init :=
  ⟨⟨fun _ _ => ⟨nofun, nofun⟩, nofun⟩, nofun, List.nodup_nil, List.nodup_nil, nofun,
    List.nodup_nil, nofun, nofun, nofun⟩

/-- In every run whose calls are harmless, no completion is used after `m_data` has given
it up, and none is called twice. -/
theorem sound_of_harmless (as : List Act)
    (h : machine.Along (fun s a _ => ∀ s', s = some s' → Harmless s' a) (some init) as) :
    machine.Along (fun _ _ t => Sound t) (some init) as := by
  refine Machine.along_of_along (I := OptionLive) ?_ init_live h
  intro s a t hI hharm hs
  cases s with
  | none => exact hI.elim
  | some s =>
    obtain ⟨s', rfl, hs'⟩ := step_live hI (hharm s rfl) (step_trans hs)
    exact ⟨hs', hs'.nodup⟩

/-- The first completion of a batch of two registers a third descriptor and removes it. -/
def harmlessBatch : List Act :=
  [.add 1 false, .add 2 false, .poll [1, 2], .iterate, .add 3 false, .remove 3 false, .finish,
    .finish, .iterate, .finish, .iterate]

theorem sound_of_harmless_batch :
    (∃ s, machine.run (some init) harmlessBatch = some (some s) ∧ s.invoked = [1, 2, 0]) ∧
      machine.Along (fun _ _ t => Sound t) (some init) harmlessBatch := by
  refine ⟨⟨_, rfl, rfl⟩, ?_⟩
  apply sound_of_harmless
  refine (Machine.along_cons rfl).mpr ⟨?_, ?_⟩
  · rintro s ⟨⟩
    exact fun _ _ => rfl
  refine (Machine.along_cons rfl).mpr ⟨?_, ?_⟩
  · rintro s ⟨⟩
    exact fun _ _ => rfl
  refine (Machine.along_cons rfl).mpr ⟨?_, ?_⟩
  · -- both are armed
    rintro s ⟨⟩ fd hfd e he
    rcases List.mem_pair.mp hfd with rfl | rfl
    · cases he
      exact .inl rfl
    · cases he
      exact .inl rfl
  refine (Machine.along_cons rfl).mpr ⟨fun _ _ => trivial, ?_⟩
  refine (Machine.along_cons rfl).mpr ⟨?_, ?_⟩
  · rintro s ⟨⟩
    exact fun _ _ => rfl
  refine (Machine.along_cons rfl).mpr ⟨?_, ?_⟩
  · rintro s ⟨⟩ _ _ ptr hp
    cases hp
    exact ⟨by decide, by decide⟩
  refine (Machine.along_cons rfl).mpr ⟨fun _ _ => trivial, ?_⟩
  refine (Machine.along_cons rfl).mpr ⟨fun _ _ => trivial, ?_⟩
  refine (Machine.along_cons rfl).mpr ⟨fun _ _ => trivial, ?_⟩
  refine (Machine.along_cons rfl).mpr ⟨fun _ _ => trivial, ?_⟩
  exact (Machine.along_cons rfl).mpr ⟨fun _ _ => trivial, trivial⟩

def removedInBatch : List Act :=
  [.add 1 false, .add 2 false, .poll [1, 2], .iterate, .remove 2 false, .finish, .finish, .iterate]

/-- The loop calls the completion that `poll_remove` has destroyed. -/
theorem removed_completion_called :
    machine.run (some init) removedInBatch = some none ∧
      ¬ machine.Along (fun _ _ t => Sound t) (some init) removedInBatch := by
  exact ⟨rfl, fun h => h.nth 7 rfl rfl rfl⟩

end BadIo.EpollService
