import BadIo.Uring.Concurrent.Locks

namespace BadIo.Uring.Concurrent

open Native

variable {k : ℕ} {E C : Type*} {ι : Type*}

def Local.isFilling : Local E → Bool
  | .filling _ _ => true
  | _ => false

/-- The calls that have taken the mutex are in the ring as a whole, except that the one
under way has put only the first part of its submissions there. -/
structure InOrder (s : Config ι (Shared k E C) (Local E)) : Prop where
  free : (∀ i, (s.threads i).isFilling = false) →
    s.shared.appended = s.shared.entered.flatten
  busy : ∀ i pending phase, s.threads i = .filling pending phase → ∃ before done,
    s.shared.entered = before ++ [done ++ pending] ∧ s.shared.appended = before.flatten ++ done
  returned : ∀ i pending r, s.threads i = .filling pending (.returned r) →
    pending = [] ∧ r = .fromValue

theorem Local.isFilling_iff {l : Local E} :
    l.isFilling = true ↔ ∃ pending phase, l = .filling pending phase := by
  cases l with
  | filling pending phase => exact iff_of_true rfl ⟨pending, phase, rfl⟩
  | _ =>
    apply iff_of_false
    · exact Bool.false_ne_true
    · nofun

theorem Local.ne_filling {l : Local E} (h : l.isFilling = false) (pending : List E)
    (phase : Appending.Phase) : l ≠ .filling pending phase := by
  rintro rfl
  cases h

theorem afterSubmit_ne_returned (result : ℤ) (r : ResultVoid) :
    Appending.afterSubmit .synchronized (.of result) ≠ .returned r := by
  -- a flush of the synchronized context never makes `submit_many` return
  rcases turn_cases result with ⟨-, ht⟩ | ⟨-, ht⟩ | ⟨h₀, -, -, ht⟩
  · rw [ht]
    nofun
  · rw [ht]
    nofun
  · rw [ht, Appending.afterSubmit_synchronized_leave h₀]
    nofun

theorem fill_moves {c c' : Appending.Call E} {a : Appending.Act}
    (h : Appending.step .synchronized c a = some c') :
    ∃ moved, c.pending = moved ++ c'.pending ∧
      c'.handed ++ c'.ring.entries = c.handed ++ c.ring.entries ++ moved := by
  -- a step of `submit_many` moves submissions from the call to the end of the ring
  have ht : Appending.Trans .synchronized c a c' := Appending.step_trans h
  cases ht with
  | finished | full => exact ⟨[], rfl, (List.append_nil _).symm⟩
  | appended submission submissions hphase hpending hroom =>
    exact ⟨[submission], hpending, (List.append_assoc ..).symm⟩
  | flushed result hphase =>
    refine ⟨[], rfl, ?_⟩
    rw [List.append_nil, Appending.Call.flushed, SubmissionRing.submit, List.append_assoc,
      List.take_append_drop]

theorem fill_returned {c c' : Appending.Call E} {a : Appending.Act} {r : ResultVoid}
    (h : Appending.step .synchronized c a = some c') (hr : c'.phase = .returned r) :
    c'.pending = [] ∧ r = .fromValue := by
  have ht : Appending.Trans .synchronized c a c' := Appending.step_trans h
  cases ht with
  | finished hphase hpending =>
    cases hr
    exact ⟨hpending, rfl⟩
  | appended submission submissions hphase => cases hphase.symm.trans hr
  | full => cases hr
  | flushed result => exact absurd hr (afterSubmit_ne_returned result r)

theorem initial_inOrder (capacity : ℕ) (slots : BitVec k → C) (buffers : WaitMany.Buffer → C) :
    InOrder (initial capacity slots buffers : Config ι (Shared k E C) (Local E)) where
  free _ := rfl
  busy _ _ _ h := nomatch h
  returned _ _ _ h := nomatch h

variable {s s' : Config ι (Shared k E C) (Local E)} {i : ι} {l : Local E}

theorem Inv.not_filling (hI : Inv s) (hsq : s.shared.sqMutex = false) (j : ι) :
    (s.threads j).isFilling = false := by
  apply Bool.eq_false_iff.mpr
  intro hj
  obtain ⟨pending, phase, hj⟩ := Local.isFilling_iff.mp hj
  have hlocked := hI.guarded.holding j .sq (by rw [hj]; rfl)
  exact absurd (hsq.symm.trans hlocked) Bool.false_ne_true

theorem Inv.only_filling (hI : Inv s) {pending : List E} {phase : Appending.Phase}
    (hi : s.threads i = .filling pending phase) {j : ι} (hj : j ≠ i) :
    (s.threads j).isFilling = false := by
  apply Bool.eq_false_iff.mpr
  intro hjf
  obtain ⟨pending', phase', hj'⟩ := Local.isFilling_iff.mp hjf
  exact hj (hI.guarded.exclusive j i .sq (by rw [hj']; rfl) (by rw [hi]; rfl))

variable [DecidableEq ι]

theorem update_filling {pending : List E} {phase : Appending.Phase} (hl : l.isFilling = false)
    {j : ι} (h : Function.update s.threads i l j = .filling pending phase) :
    s.threads j = .filling pending phase := by
  by_cases hj : j = i
  · subst hj
    rw [Function.update_self] at h
    rw [h] at hl
    cases hl
  · rwa [Function.update_of_ne hj] at h

theorem InOrder.quiet (hs : InOrder s) (hl : (s.threads i).isFilling = false)
    (hl' : l.isFilling = false) {g : Shared k E C} (happ : g.appended = s.shared.appended)
    (hent : g.entered = s.shared.entered) : InOrder ⟨g, Function.update s.threads i l⟩ := by
  refine ⟨fun hfree => ?_, fun j pending phase hj => ?_, fun j pending r hj => ?_⟩
  · change g.appended = g.entered.flatten
    rw [happ, hent]
    apply hs.free
    intro j
    by_cases hj : j = i
    · exact hj ▸ hl
    · have hfree' : (Function.update s.threads i l j).isFilling = false := hfree j
      rwa [Function.update_of_ne hj] at hfree'
  · obtain ⟨before, done, he, ha⟩ := hs.busy j pending phase (update_filling hl' hj)
    exact ⟨before, done, hent.trans he, happ.trans ha⟩
  · exact hs.returned j pending r (update_filling hl' hj)

theorem inOrder_filling {g : Shared k E C} {pending : List E} {phase : Appending.Phase}
    (hothers : ∀ j, j ≠ i → (s.threads j).isFilling = false) (before : List (List E))
    (done : List E) (he : g.entered = before ++ [done ++ pending])
    (ha : g.appended = before.flatten ++ done)
    (hr : ∀ r, phase = .returned r → pending = [] ∧ r = .fromValue) :
    InOrder ⟨g, Function.update s.threads i (.filling pending phase)⟩ := by
  -- what another thread is said to fill, this one does
  have honly : ∀ {j pending' phase'},
      Function.update s.threads i (.filling pending phase) j = .filling pending' phase' →
        pending = pending' ∧ phase = phase' := by
    intro j pending' phase' hj
    by_cases hji : j = i
    · subst hji
      rw [Function.update_self] at hj
      injection hj with hp hph
      exact ⟨hp, hph⟩
    · rw [Function.update_of_ne hji] at hj
      exact absurd hj (Local.ne_filling (hothers j hji) _ _)
  refine ⟨fun hfree => ?_, fun j pending' phase' hj => ?_, fun j pending' r hj => ?_⟩
  · have hi : (Function.update s.threads i (.filling pending phase) i).isFilling = false := hfree i
    rw [Function.update_self] at hi
    cases hi
  · obtain ⟨rfl, rfl⟩ := honly hj
    exact ⟨before, done, he, ha⟩
  · obtain ⟨rfl, rfl⟩ := honly hj
    exact hr r rfl

theorem InOrder.lockSubmit (hs : InOrder s) (hI : Inv s) (hsq : s.shared.sqMutex = false)
    (submissions : List E) :
    InOrder ⟨{ s.shared with sqMutex := true, entered := s.shared.entered ++ [submissions] },
      Function.update s.threads i (.filling submissions .getSqe)⟩ := by
  have hnone := hI.not_filling hsq
  apply inOrder_filling (fun j _ => hnone j) s.shared.entered []
  · rfl
  · exact (hs.free hnone).trans (List.append_nil _).symm
  · nofun

theorem InOrder.fill (hs : InOrder s) (hI : Inv s) {pending : List E} {phase : Appending.Phase}
    {a : Appending.Act} {c : Appending.Call E} (hi : s.threads i = .filling pending phase)
    (h : Appending.step .synchronized (s.shared.call pending phase) a = some c) :
    InOrder ⟨s.shared.fill c, Function.update s.threads i (.filling c.pending c.phase)⟩ := by
  obtain ⟨moved, hp, hmoved⟩ := fill_moves h
  obtain ⟨before, done, he, ha⟩ := hs.busy i pending phase hi
  change pending = moved ++ c.pending at hp
  apply inOrder_filling (fun j hj => hI.only_filling hi hj) before (done ++ moved)
  · change s.shared.entered = _
    rw [he, hp, List.append_assoc]
  · change c.handed ++ c.ring.entries = _
    rw [hmoved, ← List.append_assoc, ← ha]
    rfl
  · exact fun r hr => fill_returned h hr

theorem InOrder.unlockSubmit (hs : InOrder s) (hI : Inv s) {pending : List E} {r : ResultVoid}
    (hi : s.threads i = .filling pending (.returned r)) :
    InOrder ⟨{ s.shared with sqMutex := false }, Function.update s.threads i .idle⟩ := by
  -- the last step of a call leaves all of its submissions in the ring
  obtain ⟨rfl, -⟩ := hs.returned i pending r hi
  obtain ⟨before, done, he, ha⟩ := hs.busy i [] _ hi
  have hnone : ∀ j, (Function.update s.threads i .idle j).isFilling = false := by
    intro j
    by_cases hj : j = i
    · subst hj
      rw [Function.update_self]
      rfl
    · rw [Function.update_of_ne hj]
      exact hI.only_filling hi hj
  refine ⟨fun _ => ?_, fun j pending phase hj => ?_, fun j pending r hj => ?_⟩
  · change s.shared.appended = s.shared.entered.flatten
    rw [he, ha, List.append_nil, List.flatten_append, List.flatten_singleton]
  · exact absurd hj (Local.ne_filling (hnone j) _ _)
  · exact absurd hj (Local.ne_filling (hnone j) _ _)

theorem afterFlush_isFilling (wait : WaitMany.State k C) :
    (afterFlush wait : Local E).isFilling = false := by
  unfold afterFlush
  split <;> rfl

theorem InOrder.trans (hs : InOrder s) (hI : Inv s) {a : Act E} {g : Shared k E C}
    (h : Trans s.shared (s.threads i) a g l) : InOrder ⟨g, Function.update s.threads i l⟩ := by
  generalize hi : s.threads i = l₀ at h
  cases h with
  | lockSubmit submissions hsq => exact hs.lockSubmit hI hsq submissions
  | fill pending phase b c hc => exact hs.fill hI hi hc
  | unlockSubmit pending r => exact hs.unlockSubmit hI hi
  | flush result wait =>
    refine hs.quiet (hi ▸ rfl) (by split <;> rfl) ?_ rfl
    change s.shared.handed ++ s.shared.ring.entries.take _ ++ (s.shared.ring.submit _).entries = _
    rw [SubmissionRing.submit, List.append_assoc, List.take_append_drop]
    rfl
  | unlockFlush => exact hs.quiet (hi ▸ rfl) (afterFlush_isFilling _) rfl rfl
  | harvest b wait => exact hs.quiet (hi ▸ rfl) (afterFlush_isFilling _) rfl rfl
  | _ => exact hs.quiet (hi ▸ rfl) rfl rfl rfl

theorem step_inOrder (hs : Inv s ∧ InOrder s) {e : ι × Act E ⊕ C}
    (h : (machine ι k E C).step s e = some s') : Inv s' ∧ InOrder s' := by
  refine ⟨step_inv hs.1 h, ?_⟩
  obtain ⟨-, ⟨i, a, g, l, rfl, ht, rfl⟩ | ⟨cqe, wait, rfl, -, rfl⟩⟩ := machine_step h
  · exact hs.2.trans hs.1 ht
  · exact ⟨hs.2.free, hs.2.busy, hs.2.returned⟩

/-- `submit_many` is atomic: what has been appended is, in the order in which the calls
took the mutex, the whole of each call's submissions, and for the call under way the first
part of them; a call that returns has appended them all and reports no error. -/
theorem submissions_in_order {capacity : ℕ} {slots : BitVec k → C}
    {buffers : WaitMany.Buffer → C} {es : List (ι × Act E ⊕ C)}
    (h : (machine ι k E C).run (initial capacity slots buffers) es = some s) : InOrder s :=
  (Machine.invariant_of_step (fun _ _ _ hs hstep => step_inOrder hs hstep)
    ⟨initial_inv capacity slots buffers, initial_inOrder capacity slots buffers⟩ h).2

def competing : List (Bool × Act ℕ ⊕ ℕ) :=
  [.inl (true, .submitMany [7, 8]), .inl (false, .submitMany [5]), .inl (false, .lock),
    .inl (false, .fill .getSqe), .inl (false, .fill .getSqe), .inl (false, .unlock),
    .inl (true, .lock), .inl (true, .fill .getSqe), .inl (true, .fill (.submit 1)),
    .inl (true, .fill .getSqe)]

theorem submissions_in_order_competing : ∃ s,
    (machine Bool 1 ℕ ℕ).run (initial 1 (fun _ => 0) fun _ => 0) competing = some s ∧
      s.threads true = .filling [8] .getSqe ∧ s.shared.appended = [5, 7] ∧ InOrder s := by
  obtain ⟨s, h, hi, ha⟩ : ∃ s,
      (machine Bool 1 ℕ ℕ).run (initial 1 (fun _ => 0) fun _ => 0) competing = some s ∧
        s.threads true = .filling [8] .getSqe ∧ s.shared.appended = [5, 7] := ⟨_, rfl, rfl, rfl⟩
  exact ⟨s, h, hi, ha, submissions_in_order h⟩

structure Harvesting (s : Config ι (Shared k E C) (Local E)) : Prop where
  wait : WaitMany.Inv s.shared.wait
  spans : ∀ i span, s.threads i = .entering span → span.Nodup

def Distinct (e : ι × Act E ⊕ C) : Prop :=
  ∀ i span, e = .inl (i, .waitMany span) → span.Nodup

omit [DecidableEq ι] in
theorem initial_harvesting (capacity : ℕ) (slots : BitVec k → C)
    (buffers : WaitMany.Buffer → C) :
    Harvesting (initial capacity slots buffers : Config ι (Shared k E C) (Local E)) where
  wait := WaitMany.init_inv slots buffers
  spans _ _ h := nomatch h

theorem trans_wait_inv (hk : k < 32) {g g' : Shared k E C} {l l' : Local E} {a : Act E}
    (h : Trans g l a g' l') (hg : WaitMany.Inv g.wait)
    (hspan : ∀ span, l = .entering span → span.Nodup) : WaitMany.Inv g'.wait := by
  cases h with
  | lockWait span wait hfree hw =>
    have hdistinct : (WaitMany.Action.enter span : WaitMany.Action C).Distinct := hspan span rfl
    exact hg.trans hk hdistinct (WaitMany.step_trans hw)
  | flush result wait hw =>
    exact hg.trans hk (a := .submitted result) trivial (WaitMany.step_trans hw)
  | harvest b wait hw =>
    have hdistinct : (b.action : WaitMany.Action C).Distinct := by cases b <;> trivial
    exact hg.trans hk hdistinct (WaitMany.step_trans hw)
  | _ => exact hg

theorem trans_entering {g g' : Shared k E C} {l l' : Local E} {a : Act E}
    (h : Trans g l a g' l') {span : List WaitMany.Buffer} (hl : l' = .entering span) :
    a = .waitMany span := by
  cases h with
  | waitMany span' => cases hl; rfl
  | flush => split at hl <;> cases hl
  | unlockFlush | harvest =>
    unfold afterFlush at hl
    split at hl <;> cases hl
  | _ => cases hl

theorem step_harvesting (hk : k < 32) (hs : Harvesting s) {e : ι × Act E ⊕ C} (he : Distinct e)
    (h : (machine ι k E C).step s e = some s') : Harvesting s' := by
  obtain ⟨-, ⟨i, a, g, l, rfl, ht, rfl⟩ | ⟨cqe, wait, rfl, hw, rfl⟩⟩ := machine_step h
  · refine ⟨trans_wait_inv hk ht hs.wait (hs.spans i), fun j span hj => ?_⟩
    change Function.update s.threads i l j = _ at hj
    by_cases hji : j = i
    · subst hji
      rw [Function.update_self] at hj
      exact he j span (trans_entering ht hj ▸ rfl)
    · rw [Function.update_of_ne hji] at hj
      exact hs.spans j span hj
  · exact ⟨hs.wait.trans hk (a := .publish cqe) trivial (WaitMany.step_trans hw), hs.spans⟩

/-- However many threads call `wait_many` beside those that submit, their calls hand out a
prefix of the published completions, none of them twice and in order of publication.  A call
that reports no error takes what it finds, as far as its span goes; one that reports an
error takes nothing. -/
theorem completions_in_order (hk : k < 32) {capacity : ℕ} {slots : BitVec k → C}
    {buffers : WaitMany.Buffer → C} {es : List (ι × Act E ⊕ C)} (hspans : ∀ e ∈ es, Distinct e)
    (h : (machine ι k E C).run (initial capacity slots buffers) es = some s) :
    s.shared.wait.calls.flatMap WaitMany.Call.written <+: s.shared.wait.published ∧
      ∀ c ∈ s.shared.wait.calls, c.Lawful := by
  have hs : Harvesting s := Machine.invariant_of_along
    (fun s e s' hs he hstep => step_harvesting hk hs he hstep)
    (initial_harvesting capacity slots buffers) (Machine.along_of_forall hspans) h
  exact ⟨hs.wait.inOrder, hs.wait.lawful⟩

def waits (i : Bool) (error : ℤ) : List (Bool × Act ℕ ⊕ ℕ) :=
  [.inl (i, .lock), .inl (i, .lock), .inl (i, .submit (-EINTR)), .inl (i, .unlock),
    .inl (i, .harvest (.wait error))]

/-- Both threads wait, the first one twice since its first wait fails; the second one gets
what the first one had no room for. -/
def sharing : List (Bool × Act ℕ ⊕ ℕ) :=
  [.inr 7, .inr 8, .inl (true, .waitMany [40]), .inl (false, .waitMany [41, 42])] ++
    waits true (-4) ++ [.inl (true, .unlock), .inl (true, .waitMany [40])] ++
    [true, false].flatMap fun i => waits i 0 ++ [.inl (i, .harvest .walk),
      .inl (i, .harvest .walk), .inl (i, .harvest .advance), .inl (i, .unlock)]

theorem completions_in_order_sharing : ∃ s,
    (machine Bool 1 ℕ ℕ).run (initial 1 (fun _ => 0) fun _ => 0) sharing = some s ∧
      s.shared.wait.calls.map WaitMany.Call.written = [[], [7], [8]] ∧
      s.shared.wait.calls.map (fun c => c.report.error) = [4, 0, 0] ∧
      s.shared.wait.calls.flatMap WaitMany.Call.written <+: s.shared.wait.published ∧
      ∀ c ∈ s.shared.wait.calls, c.Lawful := by
  obtain ⟨s, h, hw, he⟩ : ∃ s,
      (machine Bool 1 ℕ ℕ).run (initial 1 (fun _ => 0) fun _ => 0) sharing = some s ∧
        s.shared.wait.calls.map WaitMany.Call.written = [[], [7], [8]] ∧
        s.shared.wait.calls.map (fun c => c.report.error) = [4, 0, 0] := ⟨_, rfl, rfl, rfl⟩
  refine ⟨s, h, hw, he, completions_in_order (by decide) ?_ h⟩
  rintro e hmem i span rfl
  have hspan : span = [40] ∨ span = [41, 42] := by
    simp [sharing, waits] at hmem
    tauto
  rcases hspan with rfl | rfl
  · decide
  · decide

end BadIo.Uring.Concurrent
