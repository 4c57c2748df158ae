import BadIo.Uring.WaitMany

namespace BadIo.Uring.Flushing

open Native Synchronized

variable {E : Type*}

def first (outcomes : ℕ → ℤ) (n : ℕ) : List ℤ := (List.range n).map outcomes

def ringAfter (q : SubmissionRing E) (outcomes : ℕ → ℤ) (n : ℕ) : SubmissionRing E :=
  (first outcomes n).foldl SubmissionRing.submit q

/-- `io_uring_submit` returns how many of the queued entries it has removed, or a negative
error. -/
def Kernel (q : SubmissionRing E) (outcomes : ℕ → ℤ) : Prop :=
  ∀ n, outcomes n ≤ (ringAfter q outcomes n).entries.length

/-- The flush ends.  With nothing queued the first call ends it, with success where that
call reports none, and `wait_many` goes on to its wait. -/
structure FlushRight (k : ℕ) (C : Type*) (q : SubmissionRing E) (outcomes : ℕ → ℤ) : Prop where
  ends : ∃ n, submitToKernel q (first outcomes n) ≠ .waiting
  atOnce : q.entries = [] → outcomes 0 ≠ -EINTR →
    submitToKernel q (first outcomes 1) ≠ .waiting
  success : q.entries = [] → outcomes 0 = 0 →
    submitToKernel q (first outcomes 1) = .returned (q, .fromValue, [])
  waits : q.entries = [] → outcomes 0 = 0 → ∀ (s : WaitMany.State k C) f, s.phase = .submitting f →
    ∃ n, (WaitMany.machine .synchronized k C).run s ((first outcomes n).map .submitted) =
      some { s with phase := .waiting f }

theorem turn_again_iff (result : ℤ) : Turn.of result = .again ↔ result = 0 ∨ result = EINTR := by
  rcases turn_cases result with ⟨h, ht⟩ | ⟨rfl, ht⟩ | ⟨h₀, h₁, -, ht⟩
  · exact iff_of_true ht h
  · rw [ht]
    decide
  · rw [ht]
    apply iff_of_false
    · exact Turn.noConfusion
    · exact not_or.mpr ⟨h₀, h₁⟩

theorem submitToKernel_waiting_iff (q : SubmissionRing E) (results : List ℤ) :
    submitToKernel q results = .waiting ↔ ∀ r ∈ results, r = 0 ∨ r = EINTR := by
  -- the loop has used up its outcomes exactly if each of them is a 0, whose `break` only leaves
  -- the switch, or a count that equals `EINTR`
  induction results generalizing q with
  | nil => exact iff_of_true rfl fun r hr => (List.not_mem_nil hr).elim
  | cons result results ih =>
    rw [List.forall_mem_cons, ← turn_again_iff, submitToKernel]
    cases hturn : Turn.of result with
    | again =>
      show submitToKernel (q.submit result) results = .waiting ↔ _
      rw [ih]
      exact (and_iff_right rfl).symm
    | abort => simp
    | leave r => simp

theorem mem_first {outcomes : ℕ → ℤ} {n : ℕ} {r : ℤ} :
    r ∈ first outcomes n ↔ ∃ i < n, outcomes i = r := by
  simp [first]

theorem ends_iff (q : SubmissionRing E) (outcomes : ℕ → ℤ) :
    (∃ n, submitToKernel q (first outcomes n) ≠ .waiting) ↔
      ∃ n, outcomes n ≠ 0 ∧ outcomes n ≠ EINTR := by
  constructor
  · rintro ⟨n, hn⟩
    by_contra hnone
    apply hn
    rw [submitToKernel_waiting_iff]
    intro r hr
    obtain ⟨i, -, rfl⟩ := mem_first.mp hr
    by_contra hi
    exact hnone ⟨i, not_or.mp hi⟩
  · rintro ⟨n, h₀, h₁⟩
    refine ⟨n + 1, fun hw => ?_⟩
    have hlast : outcomes n ∈ first outcomes (n + 1) := mem_first.mpr ⟨n, n.lt_succ_self, rfl⟩
    rcases (submitToKernel_waiting_iff q _).mp hw _ hlast with h | h
    · exact h₀ h
    · exact h₁ h

theorem ringAfter_empty {q : SubmissionRing E} (hq : q.entries = []) (outcomes : ℕ → ℤ) (n : ℕ) :
    (ringAfter q outcomes n).entries = [] := by
  unfold ringAfter
  generalize first outcomes n = results
  induction results generalizing q with
  | nil => exact hq
  | cons result results ih =>
    apply ih
    show q.entries.drop result.toNat = []
    rw [hq, List.drop_nil]

theorem Kernel.nonpos {q : SubmissionRing E} {outcomes : ℕ → ℤ} (h : Kernel q outcomes)
    (hq : q.entries = []) (n : ℕ) : outcomes n ≤ 0 := by
  have hn := h n
  rw [ringAfter_empty hq] at hn
  exact hn

/-- Without an error the flush of an empty ring goes on for ever. -/
theorem never_ends {q : SubmissionRing E} {outcomes : ℕ → ℤ} (hk : Kernel q outcomes)
    (hq : q.entries = []) (herr : ∀ n, 0 ≤ outcomes n) (n : ℕ) :
    submitToKernel q (first outcomes n) = .waiting := by
  rw [submitToKernel_waiting_iff]
  intro r hr
  obtain ⟨i, -, rfl⟩ := mem_first.mp hr
  exact .inl (le_antisymm (hk.nonpos hq i) (herr i))

variable {k : ℕ} {C : Type*} {s : WaitMany.State k C} {f : WaitMany.Frame}

theorem step_again {result : ℤ} (hp : s.phase = .submitting f) (h : Turn.of result = .again) :
    (WaitMany.machine .synchronized k C).step s (.submitted result) = some s := by
  show WaitMany.step .synchronized s (.submitted result) = some s
  simp only [WaitMany.step, hp, WaitMany.Synchronized.submitted, h]

theorem run_waiting {q : SubmissionRing E} {results : List ℤ} (hp : s.phase = .submitting f)
    (h : submitToKernel q results = .waiting) :
    (WaitMany.machine .synchronized k C).run s (results.map .submitted) = some s := by
  rw [submitToKernel_waiting_iff] at h
  induction results with
  | nil => rfl
  | cons result results ih =>
    rw [List.forall_mem_cons] at h
    rw [List.map_cons, Machine.run_cons, step_again hp ((turn_again_iff result).mpr h.1)]
    exact ih h.2

theorem run_returned {q q' : SubmissionRing E} {r : ResultVoid} {results rest : List ℤ}
    (hp : s.phase = .submitting f) (h : submitToKernel q results = .returned (q', r, rest)) :
    ∃ used, results = used ++ rest ∧
      (WaitMany.machine .synchronized k C).run s (used.map .submitted) =
        some { s with phase := .waiting f } := by
  -- when the flush returns, `wait_many` goes on to the wait: it takes none of these results for
  -- an error
  induction results generalizing q with
  | nil => cases h
  | cons result results ih =>
    rw [submitToKernel] at h
    split at h
    · rename_i hturn
      obtain ⟨used, rfl, hrun⟩ := ih h
      refine ⟨result :: used, rfl, ?_⟩
      rw [List.map_cons, Machine.run_cons, step_again hp hturn]
      exact hrun
    · cases h
    · rename_i r' hturn
      cases h
      refine ⟨[result], rfl, ?_⟩
      obtain ⟨e, he, rfl⟩ := turn_leave hturn
      have hstep : (WaitMany.machine .synchronized k C).step s (.submitted result) =
          some { s with phase := .waiting f } := by
        show WaitMany.step .synchronized s (.submitted result) = _
        simp [WaitMany.step, hp, WaitMany.Synchronized.submitted, hturn,
          ResultVoid.hasError_fromError he]
      rw [List.map_singleton, Machine.run_cons, hstep]
      rfl

/-- With nothing to submit and no error, `wait_many` never gets to its wait. -/
theorem wait_many_spins {q : SubmissionRing E} {outcomes : ℕ → ℤ} (hk : Kernel q outcomes)
    (hq : q.entries = []) (herr : ∀ n, 0 ≤ outcomes n) (hp : s.phase = .submitting f) (n : ℕ) :
    (WaitMany.machine .synchronized k C).run s ((first outcomes n).map .submitted) = some s :=
  run_waiting hp (never_ends hk hq herr n)

/-- The flush ends, and at once on an empty ring, exactly if some call returns something
other than 0 and `EINTR`, and the first call on an empty ring fails. -/
theorem flush_ends_iff (k : ℕ) (C : Type*) (q : SubmissionRing E) (outcomes : ℕ → ℤ)
    (hk : Kernel q outcomes) :
    FlushRight k C q outcomes ↔
      (∃ n, outcomes n ≠ 0 ∧ outcomes n ≠ EINTR) ∧ (q.entries = [] → outcomes 0 ≠ 0) := by
  constructor
  · intro h
    refine ⟨(ends_iff q outcomes).mp h.ends, fun hq h₀ => ?_⟩
    have hreturned := h.success hq h₀
    have hwaiting : submitToKernel q (first outcomes 1) = .waiting := by
      rw [submitToKernel_waiting_iff]
      intro r hr
      obtain ⟨i, hi, rfl⟩ := mem_first.mp hr
      obtain rfl : i = 0 := by omega
      exact .inl h₀
    rw [hwaiting] at hreturned
    cases hreturned
  · rintro ⟨hends, hfails⟩
    refine ⟨(ends_iff q outcomes).mpr hends, fun hq _ hw => ?_, fun hq h₀ => ?_, fun hq h₀ => ?_⟩
    · -- an error leaves the loop, and it is the only thing an empty ring can give but 0
      have hneg := hk.nonpos hq 0
      have hfirst := (submitToKernel_waiting_iff q _).mp hw (outcomes 0)
        (mem_first.mpr ⟨0, Nat.one_pos, rfl⟩)
      rcases hfirst with h₀ | h₄
      · exact hfails hq h₀
      · rw [h₄] at hneg
        exact absurd hneg (by decide)
    · exact absurd h₀ (hfails hq)
    · exact absurd h₀ (hfails hq)

/-- Three entries, taken by two calls. -/
theorem flush_ends_three :
    FlushRight 1 ℕ (⟨4, [7, 8, 9]⟩ : SubmissionRing ℕ) (fun n => if n = 1 then 3 else 0) := by
  refine (flush_ends_iff 1 ℕ _ _ fun n => ?_).mpr ⟨⟨1, by decide, by decide⟩, ?_⟩
  · by_cases hn : n = 1
    · subst hn
      decide
    · rw [if_neg hn]
      exact Int.natCast_nonneg _
  · exact fun hq => (List.cons_ne_nil _ _ hq).elim

/-- An empty ring, on which every call reports that nothing was submitted. -/
theorem flush_spins_on_empty :
    Kernel (⟨4, []⟩ : SubmissionRing ℕ) (fun _ => 0) ∧ (∀ _ : ℕ, (0 : ℤ) ≠ -EINTR) ∧
      ¬ FlushRight 1 ℕ (⟨4, []⟩ : SubmissionRing ℕ) fun _ => 0 := by
  refine ⟨fun n => Int.natCast_nonneg _, fun _ => by decide, fun h => ?_⟩
  obtain ⟨n, hn⟩ := h.ends
  apply hn
  rw [submitToKernel_waiting_iff]
  intro r hr
  obtain ⟨i, -, rfl⟩ := mem_first.mp hr
  exact .inl rfl

end BadIo.Uring.Flushing
