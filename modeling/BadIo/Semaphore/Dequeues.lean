import BadIo.Semaphore.Grants

namespace BadIo.Semaphore

variable {F : Type*}

def Local.debt : Local F → ℤ
  | .draining i old => -old - i
  | .handing _ i old => -old - i - 1
  | _ => 0

theorem debt_nonneg {l : Local F} (h : l.InRange) : 0 ≤ l.debt := by
  cases l with
  | draining i old => simp only [Local.InRange, Local.debt] at *; omega
  | handing f i old => simp only [Local.InRange, Local.debt] at *; omega
  | _ => exact le_rfl

@[simp] theorem tryLoop_debt (old : ℤ) : (tryLoop old : Local F).debt = 0 := by
  unfold tryLoop; split <;> rfl

theorem releaseLoop_debt (i old : ℤ) : (releaseLoop i old : Local F).debt = max 0 (-old - i) := by
  unfold releaseLoop
  split
  · simp only [Local.debt]; omega
  · simp only [Local.debt]; omega

def Local.Full : Local F → Prop
  | .handing f _ _ => f.isSome
  | _ => True

theorem tryLoop_full (old : ℤ) : (tryLoop old : Local F).Full := by
  unfold tryLoop; split <;> trivial

theorem releaseLoop_full (i old : ℤ) : (releaseLoop i old : Local F).Full := by
  unfold releaseLoop; split <;> trivial

section Step

variable [DecidableEq F] {ndebug : Bool} {g g' : Shared F} {l l' : Local F} {a : Act F}

def announced (g : Shared F) : Act F → ℤ
  | .release update => if 0 < g.count + update then max 0 (-g.count) else 0
  | _ => 0

theorem trans_debt (h : Trans ndebug g l a g' l') (hl : l.InRange)
    (hfound : a ≠ .tryDequeue none) :
    l'.debt - g'.functions.length ≤ l.debt - g.functions.length + announced g a := by
  -- every action but a release that lifts the counter pays for what it takes
  cases h with
  | load | reload =>
    rw [tryLoop_debt]
    simp only [Local.debt, announced]
    omega
  | release u h =>
    rw [releaseLoop_debt, announced, if_pos h]
    simp only [Local.debt]
    omega
  | raise u h =>
    rw [announced, if_neg (not_lt.mpr h)]
    simp only [Local.debt]
    omega
  | dequeue i old f hf =>
    have hlen := List.length_erase_add_one hf
    simp only [Local.debt, announced]
    omega
  | hand f i old =>
    have hl' : i < -old := hl
    rw [releaseLoop_debt]
    simp only [Local.debt, announced]
    omega
  | enqueue f =>
    simp only [Local.debt, announced, List.length_append, List.length_singleton]
    omega
  | miss | abort => exact absurd rfl hfound
  | _ =>
    simp only [Local.debt, announced]
    omega

theorem trans_short (h : Trans ndebug g l a g' l') (hl : l.InRange)
    (hfound : a ≠ .tryDequeue none) (hwaiter : a ≠ .enqueue) :
    l.debt - g.functions.length ≤ l'.debt - g'.functions.length := by
  -- only a waiter that arrives relieves the queue
  cases h with
  | load | reload =>
    rw [tryLoop_debt]
    exact le_rfl
  | release u h =>
    rw [releaseLoop_debt]
    simp only [Local.debt]
    omega
  | dequeue i old f hf =>
    have hlen := List.length_erase_add_one hf
    simp only [Local.debt]
    omega
  | hand f i old =>
    have hl' : i < -old := hl
    rw [releaseLoop_debt]
    simp only [Local.debt]
    omega
  | enqueue f => exact absurd rfl hwaiter
  | miss | abort => exact absurd rfl hfound
  | _ => exact le_rfl

theorem trans_owes {update : ℤ} (h : Trans ndebug g l (.release update) g' l')
    (hneg : g.count < 0) (hpos : 0 < g.count + update) :
    l'.debt - g'.functions.length = l.debt - g.functions.length - g.count := by
  cases h with
  | release u h =>
    rw [releaseLoop_debt]
    simp only [Local.debt]
    omega
  | raise u h => exact absurd hpos (not_lt.mpr h)

theorem trans_none (h : Trans ndebug g l (.tryDequeue none) g' l') (hl : l.InRange) :
    0 < l.debt := by
  cases h with
  | miss i old | abort i old =>
    have hl' : i < -old := hl
    simp only [Local.debt]
    omega

theorem trans_full (h : Trans ndebug g l a g' l') (hfound : a ≠ .tryDequeue none) : l'.Full := by
  cases h with
  | load | reload => exact tryLoop_full _
  | release | hand => exact releaseLoop_full _ _
  | dequeue => rfl
  | miss | abort => exact absurd rfl hfound
  | _ => trivial

theorem trans_posted (h : Trans ndebug g l a g' l') (hfound : a ≠ .tryDequeue none)
    (hl : l.Full) (hp : none ∉ g.posted) : none ∉ g'.posted := by
  cases h with
  | post f =>
    rw [List.mem_append, List.mem_singleton, not_or]
    exact ⟨hp, nofun⟩
  | hand f i old =>
    rw [List.mem_append, List.mem_singleton, not_or]
    refine ⟨hp, ?_⟩
    rintro rfl
    exact absurd hl Bool.false_ne_true
  | miss | abort => exact absurd rfl hfound
  | _ => exact hp

theorem trans_aborted (h : Trans ndebug g l a g' l') (hfound : a ≠ .tryDequeue none) :
    g'.aborted = g.aborted := by
  cases h with
  | miss | abort => exact absurd rfl hfound
  | _ => rfl

end Step

variable {ι : Type*} [Fintype ι]

/-- What the assertion of `release` relies on, and what it ensures. -/
structure Covered (s : Config ι (Shared F) (Local F)) : Prop where
  inRange : ∀ i, (s.threads i).InRange
  full : ∀ i, (s.threads i).Full
  debt : total Local.debt s.threads ≤ s.shared.functions.length
  aborted : s.shared.aborted = false
  posted : none ∉ s.shared.posted

/-- `try_dequeue` fails only on an empty queue. -/
def Honest (s : Config ι (Shared F) (Local F)) (a : ι × Act F) : Prop :=
  a.2 = .tryDequeue none → s.shared.functions = []

/-- A release that lifts the counter finds the queue long enough for the waiters that it
and the unfinished releases are going to dequeue. -/
def LongEnough (s : Config ι (Shared F) (Local F)) (a : ι × Act F) : Prop :=
  ∀ update, a.2 = .release update → s.shared.count < 0 → 0 < s.shared.count + update →
    total Local.debt s.threads - s.shared.count ≤ s.shared.functions.length

theorem announced_le {s : Config ι (Shared F) (Local F)} {a : ι × Act F}
    (hdebt : total Local.debt s.threads ≤ s.shared.functions.length) (h : LongEnough s a) :
    total Local.debt s.threads + announced s.shared a.2 ≤ s.shared.functions.length := by
  unfold announced
  split
  · rename_i update ha
    have hu := h update ha
    split
    · omega
    · omega
  · omega

/-- The step is no dequeue that fails, and it leaves behind neither a failed assertion nor
an empty `function_storage` that was posted. -/
structure Found (a : ι × Act F) (s' : Config ι (Shared F) (Local F)) : Prop where
  dequeued : a.2 ≠ .tryDequeue none
  aborted : s'.shared.aborted = false
  posted : none ∉ s'.shared.posted

theorem initial_covered (desired : ℤ) :
    Covered (initial desired : Config ι (Shared F) (Local F)) where
  inRange _ := trivial
  full _ := trivial
  debt := by
    rw [initial_total _ rfl]
    exact Int.natCast_nonneg _
  aborted := rfl
  posted := nofun

variable [DecidableEq ι] [DecidableEq F] {ndebug : Bool}

theorem Covered.dequeued {s s' : Config ι (Shared F) (Local F)} {a : ι × Act F}
    (hs : Covered s) (ha : Honest s a) (h : (machine ι F ndebug).step s a = some s') :
    a.2 ≠ .tryDequeue none := by
  intro hnone
  obtain ⟨g, l, hstep, -⟩ := interleave_step.mp h
  have hpos : 0 < (s.threads a.1).debt :=
    trans_none (hnone ▸ step_trans hstep) (hs.inRange a.1)
  have hle := le_total Local.debt s.threads (fun i => debt_nonneg (hs.inRange i)) a.1
  have hdebt := hs.debt
  rw [ha hnone, List.length_nil] at hdebt
  omega

theorem step_covered {s s' : Config ι (Shared F) (Local F)} {a : ι × Act F}
    (hs : Covered s) (ha : Honest s a) (hc : LongEnough s a)
    (h : (machine ι F ndebug).step s a = some s') : Covered s' ∧ Found a s' := by
  have hfound := hs.dequeued ha h
  obtain ⟨g, l, hstep, rfl⟩ := interleave_step.mp h
  have ht := step_trans hstep
  have haborted : g.aborted = false := (trans_aborted ht hfound).trans hs.aborted
  have hposted := trans_posted ht hfound (hs.full a.1) hs.posted
  have hdebt : total Local.debt (Function.update s.threads a.1 l) ≤ g.functions.length := by
    have hb := trans_debt ht (hs.inRange a.1) hfound
    have hu := total_update Local.debt s.threads a.1 l
    have hd := hs.debt
    have hann : total Local.debt s.threads + announced s.shared a.2 ≤ s.shared.functions.length :=
      announced_le hd hc
    omega
  exact ⟨⟨forall_update hs.inRange (trans_inRange ht (hs.inRange a.1)),
    forall_update hs.full (trans_full ht hfound), hdebt, haborted, hposted⟩,
    hfound, haborted, hposted⟩

/-- If every release that lifts the counter above zero finds the queue long enough, no
dequeue fails, whatever the threads call and however they interleave. -/
theorem dequeues_found (ndebug : Bool) (desired : ℤ) (acts : List (ι × Act F))
    (ha : (machine ι F ndebug).Along (fun s a _ => Honest s a) (initial desired) acts)
    (hc : (machine ι F ndebug).Along (fun s a _ => LongEnough s a) (initial desired) acts) :
    (machine ι F ndebug).Along (fun _ a s' => Found a s') (initial desired) acts :=
  Machine.along_of_along (I := Covered)
    (fun _ _ _ hs hc h => step_covered hs hc.1 hc.2 h) (initial_covered desired) (ha.and hc)

theorem dequeues_found_handOver :
    (machine Bool ℕ false).Along (fun _ a s' => Found a s') (initial 0) handOver :=
  dequeues_found false 0 handOver
    (by
      refine (Machine.along_cons rfl).mpr ⟨nofun, ?_⟩
      refine (Machine.along_cons rfl).mpr ⟨nofun, ?_⟩
      refine (Machine.along_cons rfl).mpr ⟨nofun, ?_⟩
      refine (Machine.along_cons rfl).mpr ⟨nofun, ?_⟩
      exact (Machine.along_cons rfl).mpr ⟨nofun, trivial⟩)
    (by
      refine (Machine.along_cons rfl).mpr ⟨nofun, ?_⟩
      refine (Machine.along_cons rfl).mpr ⟨nofun, ?_⟩
      refine (Machine.along_cons rfl).mpr ⟨fun update _ _ _ => by decide, ?_⟩
      refine (Machine.along_cons rfl).mpr ⟨nofun, ?_⟩
      exact (Machine.along_cons rfl).mpr ⟨nofun, trivial⟩)

/-- The release of one thread overtakes the waiter that another has announced. -/
def overtaken : List (Bool × Act ℕ) :=
  [(true, .asyncAcquire 7), (false, .release 2), (false, .tryDequeue none)]

/-- With assertions the program stops, and without them an empty `function_storage` is
posted. -/
theorem announced_waiter_missing :
    (∀ ndebug, (machine Bool ℕ ndebug).Along (fun s a _ => Honest s a) (initial 0) overtaken ∧
      ¬ (machine Bool ℕ ndebug).Along (fun _ a s' => Found a s') (initial 0) overtaken) ∧
    (∃ s, (machine Bool ℕ false).run (initial 0) overtaken = some s ∧
      s.shared.aborted = true) ∧
    ∃ s, (machine Bool ℕ true).run (initial 0) (overtaken ++ [(false, .post)]) = some s ∧
      s.shared.posted = [none] := by
  refine ⟨fun ndebug => ⟨?_, fun h => ?_⟩, ⟨_, rfl, rfl⟩, ⟨_, rfl, rfl⟩⟩
  · refine (Machine.along_cons rfl).mpr ⟨nofun, ?_⟩
    refine (Machine.along_cons rfl).mpr ⟨nofun, ?_⟩
    cases ndebug with
    | false => exact (Machine.along_cons rfl).mpr ⟨fun _ => rfl, trivial⟩
    | true => exact (Machine.along_cons rfl).mpr ⟨fun _ => rfl, trivial⟩
  · cases ndebug with
    | false => exact (h.nth 2 rfl rfl rfl).dequeued rfl
    | true => exact (h.nth 2 rfl rfl rfl).dequeued rfl

structure Short (s : Config ι (Shared F) (Local F)) : Prop where
  inRange : ∀ i, (s.threads i).InRange
  aborted : s.shared.aborted = false
  debt : (s.shared.functions.length : ℤ) < total Local.debt s.threads

/-- Some honest run from here has a dequeue that fails. -/
def Misses (ndebug : Bool) (s : Config ι (Shared F) (Local F)) : Prop :=
  ∃ as, (machine ι F ndebug).Along (fun s a _ => Honest s a) s as ∧
    ¬ (machine ι F ndebug).Along (fun _ a s' => Found a s') s as

variable {s t : Config ι (Shared F) (Local F)} {a : ι × Act F}

omit [Fintype ι] in
theorem Misses.of_step (h : (machine ι F ndebug).step s a = some t)
    (ha : a.2 ≠ .tryDequeue none) (ht : Misses ndebug t) : Misses ndebug s := by
  obtain ⟨as, hhonest, hfound⟩ := ht
  refine ⟨a :: as, (Machine.along_cons h).mpr ⟨fun hnone => absurd hnone ha, hhonest⟩, ?_⟩
  exact fun hall => hfound ((Machine.along_cons h).mp hall).2

theorem short_step (hs : Short s) (h : (machine ι F ndebug).step s a = some t)
    (ha : a.2 ≠ .tryDequeue none) (he : a.2 ≠ .enqueue) : Short t := by
  obtain ⟨g, l, hstep, rfl⟩ := interleave_step.mp h
  have ht := step_trans hstep
  refine ⟨forall_update hs.inRange (trans_inRange ht (hs.inRange a.1)),
    (trans_aborted ht ha).trans hs.aborted, ?_⟩
  have hb := trans_short ht (hs.inRange a.1) ha he
  have hu := total_update Local.debt s.threads a.1 l
  have hd := hs.debt
  change (g.functions.length : ℤ) < total Local.debt (Function.update s.threads a.1 l)
  omega

theorem Short.exists_draining (hs : Short s) :
    ∃ (t : Config ι (Shared F) (Local F)) (i : ι) (j old : ℤ),
      (Misses ndebug t → Misses ndebug s) ∧ Short t ∧
      t.shared.functions = s.shared.functions ∧ t.threads i = .draining j old := by
  -- some release is about to dequeue, at the latest after the post that it has begun
  obtain ⟨i, hi⟩ := exists_pos_of_total Local.debt s.threads
    (Int.lt_of_le_of_lt (Int.natCast_nonneg _) hs.debt)
  cases hl : s.threads i with
  | draining j old => exact ⟨s, i, j, old, id, hs, rfl, hl⟩
  | handing f j old =>
    have hj : j + 1 < -old := by
      rw [hl] at hi
      simp only [Local.debt] at hi
      omega
    have hstep : step ndebug s.shared (s.threads i) .post = some
        ({ s.shared with posted := s.shared.posted ++ [f] }, .draining (j + 1) old) := by
      rw [hl, trans_step hs.aborted (.hand f j old), releaseLoop, if_pos hj]
    have h : (machine ι F ndebug).step s (i, .post) = some _ :=
      interleave_step.mpr ⟨_, _, hstep, rfl⟩
    refine ⟨_, i, j + 1, old, .of_step h nofun, short_step hs h nofun nofun, rfl, ?_⟩
    exact Function.update_self ..
  | _ =>
    rw [hl] at hi
    exact absurd hi (lt_irrefl 0)

theorem Short.misses {fs : List F} (hs : Short s) (hf : s.shared.functions = fs) :
    Misses ndebug s := by
  induction fs generalizing s with
  | nil =>
    obtain ⟨t, i, j, old, hmisses, ht, hft, hl⟩ := hs.exists_draining
    refine hmisses ⟨[(i, .tryDequeue none)], ?_, ?_⟩
    · exact fun _ _ => ⟨fun _ => hft.trans hf, trivial⟩
    · intro hall
      obtain ⟨g, l, hstep⟩ : ∃ g l, step ndebug t.shared (t.threads i) (.tryDequeue none) =
          some (g, l) := by
        rw [hl]
        cases ndebug with
        | true => exact ⟨_, _, trans_step ht.aborted (.miss j old rfl)⟩
        | false => exact ⟨_, _, trans_step ht.aborted (.abort j old rfl)⟩
      exact (hall _ (interleave_step.mpr ⟨g, l, hstep, rfl⟩)).1.dequeued rfl
  | cons f fs ih =>
    obtain ⟨t, i, j, old, hmisses, ht, hft, hl⟩ := hs.exists_draining
    have hmem : f ∈ t.shared.functions := by
      rw [hft, hf]
      exact List.mem_cons_self
    have hstep : step ndebug t.shared (t.threads i) (.tryDequeue (some f)) = some
        ({ t.shared with functions := t.shared.functions.erase f }, .handing (some f) j old) := by
      rw [hl]
      exact trans_step ht.aborted (.dequeue j old f hmem)
    have h : (machine ι F ndebug).step t (i, .tryDequeue (some f)) = some _ :=
      interleave_step.mpr ⟨_, _, hstep, rfl⟩
    have herase : t.shared.functions.erase f = fs := by
      rw [hft, hf, List.erase_cons_head]
    exact hmisses (.of_step h nofun (ih (short_step ht h nofun nofun) herase))

theorem short_release_misses {i : ι} {update : ℤ} (hs : Covered s)
    (hc : ¬ LongEnough s (i, .release update))
    (h : (machine ι F ndebug).step s (i, .release update) = some t) : Misses ndebug t := by
  -- a release that does not find the queue long enough leaves a state from which a dequeue can
  -- fail
  obtain ⟨g, l, hstep, rfl⟩ := interleave_step.mp h
  have ht : Trans ndebug s.shared (s.threads i) (.release update) g l := step_trans hstep
  have haborted : g.aborted = false := (trans_aborted ht nofun).trans hs.aborted
  refine Short.misses
    ⟨forall_update hs.inRange (trans_inRange ht (hs.inRange i)), haborted, ?_⟩ rfl
  by_contra hdebt
  refine hc fun u hu hneg hpos => ?_
  cases hu
  have hb := trans_owes ht hneg hpos
  have hu := total_update Local.debt s.threads i l
  change ¬ (g.functions.length : ℤ) < total Local.debt (Function.update s.threads i l) at hdebt
  omega

end BadIo.Semaphore
