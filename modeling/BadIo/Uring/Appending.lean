import BadIo.Machine
import BadIo.Uring.Submission

namespace BadIo.Uring.Appending

open Native

inductive Phase where
  | getSqe
  | flush
  | returned (r : ResultVoid)
  | aborted
  deriving DecidableEq

/-- A call in progress.  The entries `handed` to the kernel and the `results` of
`io_uring_submit`, the last of them first, only record what has happened. -/
structure Call (E : Type*) where
  ring : SubmissionRing E
  pending : List E
  phase : Phase
  handed : List E
  results : List ℤ
  deriving DecidableEq

inductive Act where
  | getSqe
  | submit (result : ℤ)
  deriving DecidableEq

/-- Where the call continues.  `submit_one` of the unsynchronized context has the switch
inside its own loop; `submit_to_kernel` has it in a loop of its own, whose result the
loop around it looks at. -/
def afterSubmit : Context → Turn → Phase
  | .unsynchronized, .again => .getSqe
  | .unsynchronized, .leave r => .returned r
  | .synchronized, .again => .flush
  | .synchronized, .leave r => if r.hasError then .returned r else .getSqe
  | _, .abort => .aborted

variable {E : Type*}

def Call.flushed (ctx : Context) (s : Call E) (result : ℤ) : Call E :=
  { s with
    ring := s.ring.submit result
    phase := afterSubmit ctx (.of result)
    handed := s.handed ++ s.ring.entries.take result.toNat
    results := result :: s.results }

def step (ctx : Context) (s : Call E) : Act → Option (Call E)
  | .getSqe => match s.phase, s.pending with
    | .getSqe, [] => some { s with phase := .returned .fromValue }
    | .getSqe, submission :: submissions =>
      if s.ring.hasRoom then
        some { s with ring := s.ring.append submission, pending := submissions }
      else some { s with phase := .flush }
    | _, _ => none
  | .submit result => match s.phase with
    | .flush => some (s.flushed ctx result)
    | _ => none

def machine (E : Type*) (ctx : Context) : Machine (Call E) Act := ⟨step ctx⟩

/-- `submit_many`; a list of one submission is `submit_one`, the only function of the
unsynchronized context. -/
def start (ring : SubmissionRing E) (submissions : List E) : Call E :=
  ⟨ring, submissions, .getSqe, [], []⟩

/-- The kernel takes no more entries than there are. -/
def Kernel (s : Call E) : Act → Prop
  | .getSqe => True
  | .submit result => result ≤ s.ring.entries.length

def Appended (ring : SubmissionRing E) (submissions : List E) (s : Call E) : Prop :=
  s.handed ++ s.ring.entries = ring.entries ++ submissions

/-- With room in the ring the call neither flushes again nor gives up (`flush_spins` says
what becomes of a call that flushes again). -/
structure Right (ring : SubmissionRing E) (submissions : List E) (s : Call E) : Prop where
  appended : ∀ r, s.phase = .returned r → (r.error = 0 ↔ Appended ring submissions s)
  error : ∀ r, s.phase = .returned r → r.error ≠ 0 →
    ∃ result ∈ s.results, result < 0 ∧ result ≠ -EINTR ∧ r.error = -result
  abort : s.phase = .aborted → s.results.head? = some (-EBADR)
  room : s.ring.hasRoom = true → s.phase = .getSqe ∨ s.phase = .returned .fromValue

/-- The outcomes of `io_uring_submit` for which the switch takes the right case. -/
def Good : Context → Act → Prop
  | _, .getSqe => True
  | .unsynchronized, .submit result =>
    result = 0 ∨ result = EINTR ∨ (result < 0 ∧ result ≠ -EINTR)
  | .synchronized, .submit result => result ≠ EINTR ∧ result ≠ EBADR

inductive Trans (ctx : Context) (s : Call E) : Act → Call E → Prop where
  | finished (hphase : s.phase = .getSqe) (hpending : s.pending = []) :
      Trans ctx s .getSqe { s with phase := .returned .fromValue }
  | appended (submission : E) (submissions : List E) (hphase : s.phase = .getSqe)
      (hpending : s.pending = submission :: submissions) (hroom : s.ring.hasRoom = true) :
      Trans ctx s .getSqe { s with ring := s.ring.append submission, pending := submissions }
  | full (submission : E) (submissions : List E) (hphase : s.phase = .getSqe)
      (hpending : s.pending = submission :: submissions) (hroom : s.ring.hasRoom = false) :
      Trans ctx s .getSqe { s with phase := .flush }
  | flushed (result : ℤ) (hphase : s.phase = .flush) :
      Trans ctx s (.submit result) (s.flushed ctx result)

theorem step_trans {ctx : Context} {s s' : Call E} {a : Act}
    (h : (machine E ctx).step s a = some s') : Trans ctx s a s' := by
  change step ctx s a = some s' at h
  unfold step at h
  split at h
  · split at h
    · rename_i hphase hpending
      cases h
      exact .finished hphase hpending
    · rename_i hphase hpending
      split at h
      · rename_i hroom
        cases h
        exact .appended _ _ hphase hpending hroom
      · rename_i hroom
        cases h
        exact .full _ _ hphase hpending (Bool.not_eq_true _ ▸ hroom)
    · cases h
  · split at h
    · rename_i hphase
      cases h
      exact .flushed _ hphase
    · cases h

theorem step_submit {ctx : Context} {s : Call E} {result : ℤ} (h : s.phase = .flush) :
    step ctx s (.submit result) = some (s.flushed ctx result) := by
  simp only [step, h]

theorem step_append {ctx : Context} {s : Call E} {submission : E} {submissions : List E}
    (h : s.phase = .getSqe) (hpending : s.pending = submission :: submissions)
    (hroom : s.ring.hasRoom = true) :
    step ctx s .getSqe =
      some { s with ring := s.ring.append submission, pending := submissions } := by
  simp only [step, h, hpending, hroom, if_true]

theorem step_full {ctx : Context} {s : Call E} {submission : E} {submissions : List E}
    (h : s.phase = .getSqe) (hpending : s.pending = submission :: submissions)
    (hroom : s.ring.hasRoom = false) :
    step ctx s .getSqe = some { s with phase := .flush } := by
  simp only [step, h, hpending, hroom, Bool.false_eq_true, if_false]

theorem step_finish {ctx : Context} {s : Call E} (h : s.phase = .getSqe)
    (hpending : s.pending = []) :
    step ctx s .getSqe = some { s with phase := .returned .fromValue } := by
  simp only [step, h, hpending]

structure Inv (ring : SubmissionRing E) (submissions : List E) (s : Call E) : Prop where
  split : s.handed ++ s.ring.entries ++ s.pending = ring.entries ++ submissions
  fill : s.ring.entries.length ≤ s.ring.capacity
  flush : s.phase = .flush → s.pending ≠ [] ∧ s.ring.hasRoom = false

variable {ring : SubmissionRing E} {submissions : List E} {s s' : Call E} {a : Act}

theorem inv_start (h : ring.entries.length ≤ ring.capacity) :
    Inv ring submissions (start ring submissions) :=
  ⟨rfl, h, nofun⟩

theorem afterSubmit_synchronized_leave {result : ℤ} (h : result ≠ 0) :
    afterSubmit .synchronized (.leave (.fromError (-result))) = .getSqe := by
  have he : (ResultVoid.fromError (-result)).hasError = false :=
    ResultVoid.hasError_fromError (by omega)
  rw [afterSubmit, he, if_neg Bool.false_ne_true]

theorem right_of_getSqe (h : s.phase = .getSqe) : Right ring submissions s :=
  ⟨fun _ hr => (nomatch h.symm.trans hr), fun _ hr => (nomatch h.symm.trans hr),
    fun hr => (nomatch h.symm.trans hr), fun _ => .inl h⟩

theorem right_getSqe {ctx : Context} (hI : Inv ring submissions s)
    (h : Trans ctx s .getSqe s') : Right ring submissions s' := by
  cases h with
  | finished hphase hpending =>
    have happ : s.handed ++ s.ring.entries = ring.entries ++ submissions := by
      simpa [hpending] using hI.split
    constructor
    · intro r hr
      cases hr
      exact ⟨fun _ => happ, fun _ => rfl⟩
    · intro r hr herr
      cases hr
      exact absurd rfl herr
    · nofun
    · exact fun _ => .inr rfl
  | appended submission rest hphase hpending hroom => exact right_of_getSqe hphase
  | full submission rest hphase hpending hroom =>
    exact ⟨nofun, nofun, nofun, fun h => nomatch hroom.symm.trans h⟩

theorem not_appended (hI : Inv ring submissions s) (hphase : s.phase = .flush) :
    ¬ s.handed ++ s.ring.entries = ring.entries ++ submissions := by
  -- the call gave up on a full ring
  intro h
  have hsplit := hI.split
  rw [← h, List.append_right_eq_self] at hsplit
  exact (hI.flush hphase).1 hsplit

theorem not_right_abort {results : List ℤ} (hphase : s.phase = .aborted)
    (hresults : s.results = EBADR :: results) : ¬ Right ring submissions s := by
  -- `abort` is for -EBADR, and the switch has it for the count EBADR
  intro h
  have habort := h.abort hphase
  rw [hresults] at habort
  cases habort

theorem phase_flushed {ctx : Context} {result : ℤ} {turn : Turn} (h : Turn.of result = turn) :
    (s.flushed ctx result).phase = afterSubmit ctx turn := by
  rw [← h]
  rfl

theorem flushed_of_nonpos {ctx : Context} {result : ℤ} (h : result ≤ 0) :
    (s.flushed ctx result).ring = s.ring ∧ (s.flushed ctx result).handed = s.handed := by
  refine ⟨SubmissionRing.submit_of_nonpos h, ?_⟩
  rw [Call.flushed, Int.toNat_of_nonpos h, List.take_zero, List.append_nil]

theorem right_returned {ctx : Context} {result : ℤ} (hI : Inv ring submissions s)
    (hphase : s.phase = .flush) (hneg : result < 0) (hne : result ≠ -EINTR)
    (ht : (s.flushed ctx result).phase = .returned (.fromError (-result))) :
    Right ring submissions (s.flushed ctx result) := by
  obtain ⟨hring, hhanded⟩ : (s.flushed ctx result).ring = s.ring ∧
      (s.flushed ctx result).handed = s.handed := flushed_of_nonpos (Int.le_of_lt hneg)
  have herr : (ResultVoid.fromError (-result)).error ≠ 0 := by
    change -result ≠ 0
    omega
  constructor
  · intro r hr
    cases ht.symm.trans hr
    refine ⟨fun he => absurd he herr, fun happ => ?_⟩
    rw [Appended, hring, hhanded] at happ
    exact absurd happ (not_appended hI hphase)
  · intro r hr _
    cases ht.symm.trans hr
    exact ⟨result, List.mem_cons_self, hneg, hne, rfl⟩
  · exact fun h => nomatch ht.symm.trans h
  · rw [hring]
    exact fun hroom => nomatch (hI.flush hphase).2.symm.trans hroom

theorem right_unsynchronized {result : ℤ} (hI : Inv ring submissions s)
    (hphase : s.phase = .flush) :
    Right ring submissions (s.flushed .unsynchronized result) ↔
      Good .unsynchronized (.submit result) := by
  rcases turn_cases result with ⟨hagain, ht⟩ | ⟨rfl, ht⟩ | ⟨h₀, h₁, -, ht⟩
  · refine ⟨fun _ => ?_, fun _ => right_of_getSqe (phase_flushed ht)⟩
    rcases hagain with h | h
    · exact .inl h
    · exact .inr (.inl h)
  · constructor
    · exact fun hr => absurd hr (not_right_abort (phase_flushed ht) rfl)
    · rintro (h | h | h)
      · cases h
      · cases h
      · exact absurd h.1 (by decide)
  · constructor
    · intro hr
      have herr : (ResultVoid.fromError (-result)).error ≠ 0 :=
        fun h => h₀ (Int.neg_eq_zero.mp h)
      obtain ⟨x, -, hneg, hne, hx⟩ := hr.error _ (phase_flushed ht) herr
      have hrx : result = x := Int.neg_inj.mp hx
      exact .inr (.inr ⟨hrx ▸ hneg, hrx ▸ hne⟩)
    · rintro (h | h | h)
      · exact absurd h h₀
      · exact absurd h h₁
      · exact right_returned hI hphase h.1 h.2 (phase_flushed ht)

theorem right_synchronized {result : ℤ} (hI : Inv ring submissions s)
    (hphase : s.phase = .flush) (hk : result ≤ s.ring.entries.length) :
    Right ring submissions (s.flushed .synchronized result) ↔
      Good .synchronized (.submit result) := by
  rcases turn_cases result with ⟨rfl | rfl, ht⟩ | ⟨rfl, ht⟩ | ⟨h₀, h₁, h₂, ht⟩
  · refine ⟨fun _ => ⟨by decide, by decide⟩, fun _ => ?_⟩
    have hp : (s.flushed .synchronized 0).phase = .flush := phase_flushed ht
    refine ⟨fun _ h => ?_, fun _ h => ?_, fun h => ?_, fun hroom => ?_⟩
    · exact nomatch hp.symm.trans h
    · exact nomatch hp.symm.trans h
    · exact nomatch hp.symm.trans h
    · rw [(flushed_of_nonpos (Int.le_refl 0)).1] at hroom
      exact nomatch (hI.flush hphase).2.symm.trans hroom
  · -- a count of four has made room, and the loop flushes on
    have hp : (s.flushed .synchronized EINTR).phase = .flush := phase_flushed ht
    refine ⟨fun hr => ?_, fun hgood => absurd rfl hgood.1⟩
    rcases hr.room (SubmissionRing.hasRoom_submit hI.fill (by decide) hk) with h | h
    · cases hp.symm.trans h
    · cases hp.symm.trans h
  · refine ⟨fun hr => ?_, fun hgood => absurd rfl hgood.2⟩
    exact absurd hr (not_right_abort (phase_flushed ht) rfl)
  · refine ⟨fun _ => ⟨h₁, h₂⟩, fun _ => right_of_getSqe ?_⟩
    rw [phase_flushed ht, afterSubmit_synchronized_leave h₀]

theorem step_right_iff {ctx : Context} (hI : Inv ring submissions s) (hk : Kernel s a)
    (hs : (machine E ctx).step s a = some s') : Right ring submissions s' ↔ Good ctx a := by
  have h := step_trans hs
  cases a with
  | getSqe => exact ⟨fun _ => by cases ctx <;> trivial, fun _ => right_getSqe hI h⟩
  | submit result =>
    cases h with
    | flushed _ hphase =>
      cases ctx with
      | unsynchronized => exact right_unsynchronized hI hphase
      | synchronized => exact right_synchronized hI hphase hk

theorem afterSubmit_flush {ctx : Context} {result : ℤ} (hgood : Good ctx (.submit result))
    (h : afterSubmit ctx (.of result) = .flush) : result = 0 := by
  -- of the outcomes with the right case only an empty flush is followed by another
  rcases turn_cases result with ⟨rfl | rfl, ht⟩ | ⟨hbadr, ht⟩ | ⟨h₀, h₁, h₂, ht⟩
  · rfl
  · rw [ht] at h
    cases ctx with
    | unsynchronized => cases h
    | synchronized => exact absurd rfl hgood.1
  · rw [ht] at h
    cases ctx <;> cases h
  · rw [ht] at h
    cases ctx with
    | unsynchronized => cases h
    | synchronized => exact nomatch (afterSubmit_synchronized_leave h₀).symm.trans h

theorem step_inv {ctx : Context} (hI : Inv ring submissions s) (hgood : Good ctx a)
    (hs : (machine E ctx).step s a = some s') : Inv ring submissions s' := by
  cases step_trans hs with
  | finished hphase hpending => exact ⟨hI.split, hI.fill, nofun⟩
  | appended submission rest hphase hpending hroom =>
    refine ⟨?_, ?_, fun h => nomatch hphase.symm.trans h⟩
    · have hsplit := hI.split
      rw [hpending] at hsplit
      simpa [SubmissionRing.append] using hsplit
    · have hlt : s.ring.entries.length < s.ring.capacity := of_decide_eq_true hroom
      simpa [SubmissionRing.append] using Nat.succ_le_of_lt hlt
  | full submission rest hphase hpending hroom =>
    refine ⟨hI.split, hI.fill, fun _ => ⟨?_, hroom⟩⟩
    exact hpending ▸ List.cons_ne_nil _ _
  | flushed result hphase =>
    refine ⟨?_, ?_, fun hflush => ⟨(hI.flush hphase).1, ?_⟩⟩
    · have htake : s.ring.entries.take result.toNat ++ s.ring.entries.drop result.toNat =
          s.ring.entries := List.take_append_drop _ _
      rw [← hI.split, Call.flushed, SubmissionRing.submit, List.append_assoc s.handed, htake]
    · have hfill := hI.fill
      simp only [Call.flushed, SubmissionRing.submit, List.length_drop]
      omega
    · rw [afterSubmit_flush hgood hflush, (flushed_of_nonpos (Int.le_refl 0)).1]
      exact (hI.flush hphase).2

theorem submit_right_iff (ctx : Context) (ring : SubmissionRing E) (submissions : List E)
    (as : List Act) (hfill : ring.entries.length ≤ ring.capacity)
    (hk : (machine E ctx).Along (fun s a _ => Kernel s a) (start ring submissions) as) :
    (machine E ctx).Along (fun _ _ s' => Right ring submissions s') (start ring submissions) as ↔
      (machine E ctx).Along (fun _ a _ => Good ctx a) (start ring submissions) as :=
  Machine.along_iff_along (I := Inv ring submissions)
    (fun _ _ _ hI hk hs => step_right_iff hI hk hs)
    (fun _ _ _ hI _ hgood hs => step_inv hI hgood hs) (inv_start hfill) hk

/-- The count 1 of a flush that has made room comes back as error -1. -/
theorem flushed_entry_is_error :
    (machine ℕ .unsynchronized).Along (fun s a _ => Kernel s a) (start ⟨1, [1]⟩ [2])
      [.getSqe, .submit 1] ∧
    ¬ (machine ℕ .unsynchronized).Along (fun _ _ s' => Right ⟨1, [1]⟩ [2] s') (start ⟨1, [1]⟩ [2])
      [.getSqe, .submit 1] := by
  constructor
  · intro s₁ h₁
    cases h₁
    refine ⟨trivial, fun s₂ _ => ⟨?_, trivial⟩⟩
    simp [Kernel, start]
  · intro h
    have hr := ((h _ rfl).2 _ rfl).1
    obtain ⟨x, hx, hneg, -⟩ := hr.error _ rfl (by decide)
    rw [List.mem_singleton.mp hx] at hneg
    exact absurd hneg (by decide)

/-- The same ring: the kernel takes nothing the first time, and is out of resources the
second time, which the call returns. -/
theorem submit_right_iff_interrupted :
    (∃ s, (machine ℕ .unsynchronized).run (start ⟨1, [1]⟩ [2])
        [.getSqe, .submit 0, .getSqe, .submit (-11)] = some s ∧
      s.phase = .returned (.fromError 11)) ∧
    ((machine ℕ .unsynchronized).Along (fun _ _ s' => Right ⟨1, [1]⟩ [2] s') (start ⟨1, [1]⟩ [2])
        [.getSqe, .submit 0, .getSqe, .submit (-11)] ↔
      (machine ℕ .unsynchronized).Along (fun _ a _ => Good .unsynchronized a)
        (start ⟨1, [1]⟩ [2]) [.getSqe, .submit 0, .getSqe, .submit (-11)]) := by
  refine ⟨⟨_, rfl, rfl⟩, submit_right_iff .unsynchronized ⟨1, [1]⟩ [2] _ (by decide) ?_⟩
  intro s₁ h₁
  cases h₁
  refine ⟨trivial, fun s₂ h₂ => ?_⟩
  cases h₂
  refine ⟨by simp [Kernel, start], fun s₃ h₃ => ?_⟩
  cases h₃
  refine ⟨trivial, fun s₄ _ => ⟨?_, trivial⟩⟩
  simp [Kernel, start]

/-- `submit_to_kernel` called with nothing to hand over goes round for ever: the `break` of
its case 0 leaves the switch only. -/
theorem flush_spins (h : s.phase = .flush) (n : ℕ) :
    ∃ t, (machine E .synchronized).run s (List.replicate n (.submit 0)) = some t ∧
      t.phase = .flush ∧ t.ring = s.ring := by
  induction n generalizing s with
  | zero => exact ⟨s, rfl, h, rfl⟩
  | succ n ih =>
    obtain ⟨t, ht, hphase, hring⟩ := ih (s := s.flushed .synchronized 0) rfl
    refine ⟨t, ?_, hphase, hring⟩
    exact (machine E .synchronized).run_cons_eq_some.mpr ⟨_, step_submit h, ht⟩

def outcomes : List Act → List ℤ :=
  List.filterMap fun
    | .getSqe => none
    | .submit result => some result

def Runs (ctx : Context) (s : Call E) (results : List ℤ) (t : Call E) (rest : List ℤ) : Prop :=
  ∃ as, (machine E ctx).run s as = some t ∧ results = outcomes as ++ rest

variable {ctx : Context} {t u : Call E} {results rest rest' : List ℤ}

theorem Runs.refl (s : Call E) (results : List ℤ) : Runs ctx s results s results := ⟨[], rfl, rfl⟩

theorem Runs.getSqe (h : step ctx s .getSqe = some t) (hr : Runs ctx t results u rest) :
    Runs ctx s results u rest := by
  obtain ⟨as, hrun, hout⟩ := hr
  exact ⟨.getSqe :: as, (machine E ctx).run_cons_eq_some.mpr ⟨t, h, hrun⟩, hout⟩

theorem Runs.submit {result : ℤ} (h : step ctx s (.submit result) = some t)
    (hr : Runs ctx t results u rest) : Runs ctx s (result :: results) u rest := by
  obtain ⟨as, hrun, rfl⟩ := hr
  exact ⟨.submit result :: as, (machine E ctx).run_cons_eq_some.mpr ⟨t, h, hrun⟩, rfl⟩

theorem Runs.trans (h : Runs ctx s results t rest) (h' : Runs ctx t rest u rest') :
    Runs ctx s results u rest' := by
  obtain ⟨as, hrun, rfl⟩ := h
  obtain ⟨bs, hrun', rfl⟩ := h'
  refine ⟨as ++ bs, by rw [Machine.run_append, hrun, Option.bind_some, hrun'], ?_⟩
  rw [outcomes, List.filterMap_append, List.append_assoc]

/-- Some actions lead from `s` to a return of `r`, with `q` as the ring. -/
def Returns (ctx : Context) (s : Call E) (results : List ℤ) (q : SubmissionRing E)
    (r : ResultVoid) (rest : List ℤ) : Prop :=
  ∃ t, Runs ctx s results t rest ∧ t.ring = q ∧ t.phase = .returned r

variable {q : SubmissionRing E} {r : ResultVoid} {submission : E}

theorem Returns.of_runs (h : Runs ctx s results t rest) (hr : Returns ctx t rest q r rest') :
    Returns ctx s results q r rest' := by
  obtain ⟨u, hu, hring, hphase⟩ := hr
  exact ⟨u, h.trans hu, hring, hphase⟩

theorem returns_finish (hphase : s.phase = .getSqe) (hpending : s.pending = []) :
    Returns ctx s results s.ring .fromValue results :=
  ⟨_, .getSqe (step_finish hphase hpending) (.refl _ _), rfl, rfl⟩

theorem runs_append {submissions : List E} (hphase : s.phase = .getSqe)
    (hpending : s.pending = submission :: submissions) (hroom : s.ring.hasRoom = true) :
    Runs ctx s results { s with ring := s.ring.append submission, pending := submissions } results :=
  .getSqe (step_append hphase hpending hroom) (.refl _ _)

theorem runs_flush {submissions : List E} {result : ℤ} (hphase : s.phase = .getSqe)
    (hpending : s.pending = submission :: submissions) (hroom : s.ring.hasRoom = false) :
    Runs ctx s (result :: results) (Call.flushed ctx { s with phase := .flush } result) results :=
  .getSqe (step_full hphase hpending hroom) (.submit (step_submit rfl) (.refl _ _))

theorem unsynchronized_returns (hphase : s.phase = .getSqe) (hpending : s.pending = [submission])
    (h : Unsynchronized.submitOne s.ring submission results = .returned (q, r)) :
    ∃ rest, Returns .unsynchronized s results q r rest := by
  induction results generalizing s with
  | nil =>
    rw [Unsynchronized.submitOne] at h
    split at h
    · rename_i hroom
      cases h
      exact ⟨[], .of_runs (runs_append hphase hpending hroom) (returns_finish hphase rfl)⟩
    · cases h
  | cons result results ih =>
    rw [Unsynchronized.submitOne] at h
    split at h
    · rename_i hroom
      cases h
      exact ⟨_, .of_runs (runs_append hphase hpending hroom) (returns_finish hphase rfl)⟩
    rename_i hroom
    have hflush : Runs .unsynchronized s (result :: results)
        (Call.flushed .unsynchronized { s with phase := .flush } result) results :=
      runs_flush hphase hpending (Bool.not_eq_true _ ▸ hroom)
    split at h
    · rename_i ht
      obtain ⟨rest, hr⟩ := ih (s := Call.flushed .unsynchronized { s with phase := .flush } result)
        (phase_flushed ht) hpending h
      exact ⟨rest, .of_runs hflush hr⟩
    · cases h
    · rename_i ht
      cases h
      exact ⟨results, _, hflush, rfl, phase_flushed ht⟩

theorem submitToKernel_runs (hphase : s.phase = .flush)
    (h : Synchronized.submitToKernel s.ring results = .returned (q, r, rest)) :
    ∃ t, Runs .synchronized s results t rest ∧ t.ring = q ∧ t.pending = s.pending ∧
      t.phase = .getSqe := by
  induction results generalizing s with
  | nil => cases h
  | cons result results ih =>
    have hflush : Runs .synchronized s (result :: results) (s.flushed .synchronized result) results :=
      .submit (step_submit hphase) (.refl _ _)
    rw [Synchronized.submitToKernel] at h
    split at h
    · rename_i ht
      obtain ⟨t, hruns, hring, hpending, hp⟩ :=
        ih (s := s.flushed .synchronized result) (phase_flushed ht) h
      exact ⟨t, hflush.trans hruns, hring, hpending, hp⟩
    · cases h
    · rename_i ht
      cases h
      refine ⟨_, hflush, rfl, rfl, ?_⟩
      obtain ⟨e, he, rfl⟩ := turn_leave ht
      rw [phase_flushed ht, afterSubmit, ResultVoid.hasError_fromError he,
        if_neg Bool.false_ne_true]

theorem getSqe_runs {submissions : List E} {o : Option ResultVoid} (hphase : s.phase = .getSqe)
    (hpending : s.pending = submission :: submissions)
    (h : Synchronized.getSqe s.ring results = .returned (q, o, rest)) :
    ∃ t, Runs .synchronized s results t rest ∧ t.ring = q ∧ t.pending = s.pending ∧
      t.phase = .getSqe ∧ q.hasRoom = true := by
  generalize hring : s.ring = ring at h
  fun_induction Synchronized.getSqe ring results generalizing s with
  | case1 ring results hroom =>
    cases h
    exact ⟨s, .refl _ _, hring, rfl, hphase, hroom⟩
  | case2 ring results hroom q₁ r rest₁ hk hlen herr =>
    rw [(Synchronized.submitToKernel_spec hk).1] at herr
    cases herr
  | case3 ring results hroom q₁ r rest₁ hk hlen herr ih =>
    subst hring
    obtain ⟨t, ht, hring₁, hpending₁, hphase₁⟩ :=
      submitToKernel_runs (s := { s with phase := .flush }) rfl hk
    obtain ⟨u, hu, hring₂, hpending₂, hphase₂, hroom₂⟩ :=
      ih hphase₁ (hpending₁.trans hpending) hring₁ h
    refine ⟨u, ?_, hring₂, hpending₂.trans hpending₁, hphase₂, hroom₂⟩
    exact (Runs.getSqe (step_full hphase hpending (Bool.not_eq_true _ ▸ hroom)) ht).trans hu
  | case4 => cases h
  | case5 => cases h

theorem submitMany_returns {submissions : List E} (hphase : s.phase = .getSqe)
    (hpending : s.pending = submissions)
    (h : Synchronized.submitMany s.ring submissions results = .returned (q, r)) :
    ∃ rest, Returns .synchronized s results q r rest := by
  induction submissions generalizing s results with
  | nil =>
    cases h
    exact ⟨results, returns_finish hphase hpending⟩
  | cons submission submissions ih =>
    rw [Synchronized.submitMany] at h
    split at h
    · rename_i q₁ rest hs
      obtain ⟨t, ht, rfl, hpending₁, hphase₁, hroom⟩ := getSqe_runs hphase hpending hs
      have happend : Runs .synchronized t rest
          { t with ring := t.ring.append submission, pending := submissions } rest :=
        runs_append hphase₁ (hpending₁.trans hpending) hroom
      obtain ⟨rest', hr⟩ := ih (s := { t with ring := _, pending := submissions }) hphase₁ rfl h
      exact ⟨rest', .of_runs (ht.trans happend) hr⟩
    · rename_i hs
      cases (Synchronized.getSqe_spec hs).1
    · cases h
    · cases h

/-- What `submit_one` returns, a run of the machine returns. -/
theorem submitOne_returns (ctx : Context) (ring : SubmissionRing E)
    (h : ctx.submitOne ring submission results = .returned (q, r)) :
    ∃ rest, Returns ctx (start ring [submission]) results q r rest := by
  cases ctx with
  | unsynchronized => exact unsynchronized_returns rfl rfl h
  | synchronized => exact submitMany_returns (s := start ring [submission]) rfl rfl h

end BadIo.Uring.Appending
