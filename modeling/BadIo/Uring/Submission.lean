import Mathlib.Data.List.Basic
import BadIo.Native.Result

namespace BadIo.Uring

open Native

/-- What is queued and not yet handed to the kernel. -/
structure SubmissionRing (E : Type*) where
  capacity : ℕ
  entries : List E
  deriving DecidableEq

namespace SubmissionRing

variable {E : Type*}

def hasRoom (q : SubmissionRing E) : Bool := q.entries.length < q.capacity

def append (q : SubmissionRing E) (e : E) : SubmissionRing E :=
  { q with entries := q.entries ++ [e] }

/-- `io_uring_submit` returned `result`: a count of entries handed over, or an error. -/
def submit (q : SubmissionRing E) (result : ℤ) : SubmissionRing E :=
  { q with entries := q.entries.drop result.toNat }

variable {q : SubmissionRing E} {result : ℤ}

theorem submit_of_nonpos (h : result ≤ 0) : q.submit result = q := by
  rw [submit, Int.toNat_of_nonpos h, List.drop_zero]

theorem hasRoom_submit (hfill : q.entries.length ≤ q.capacity) (hpos : 0 < result)
    (hk : result ≤ q.entries.length) : (q.submit result).hasRoom = true := by
  have hlen : (q.submit result).entries.length = q.entries.length - result.toNat :=
    List.length_drop
  have hcap : (q.submit result).capacity = q.capacity := rfl
  rw [hasRoom, decide_eq_true_eq, hlen, hcap]
  omega

end SubmissionRing

def EINTR : ℤ := 4

def EBADR : ℤ := 53

inductive Turn where
  | again
  | abort
  | leave (r : ResultVoid)
  deriving DecidableEq

/-- The switch of `submit_to_kernel`.  The `break` of its case 0 leaves the switch and not
the loop around it, so that case goes round again like `EINTR`. -/
def Turn.of (result : ℤ) : Turn :=
  if result = 0 then .again
  else if result = EINTR then .again
  else if result = EBADR then .abort
  else .leave (.fromError (-result))

/-- How a function ends on the outcomes of `io_uring_submit`, which the environment gives;
`waiting` is a loop that has used them up. -/
inductive Outcome (ρ : Type*) where
  | returned (r : ρ)
  | aborted
  | waiting
  deriving DecidableEq

variable {E : Type*}

namespace Unsynchronized

/-- The switch names the same cases as that of `submit_to_kernel`, with `continue` for 0, so it
shares `Turn.of`. -/
def submitOne (q : SubmissionRing E) (submission : E) :
    List ℤ → Outcome (SubmissionRing E × ResultVoid)
  | [] => if q.hasRoom then .returned (q.append submission, .fromValue) else .waiting
  | result :: results =>
    if q.hasRoom then .returned (q.append submission, .fromValue)
    else match Turn.of result with
      | .again => submitOne (q.submit result) submission results
      | .abort => .aborted
      | .leave r => .returned (q.submit result, r)

end Unsynchronized

namespace Synchronized

/-- Returns also the outcomes that are left for later calls. -/
def submitToKernel (q : SubmissionRing E) :
    List ℤ → Outcome (SubmissionRing E × ResultVoid × List ℤ)
  | [] => .waiting
  | result :: results => match Turn.of result with
    | .again => submitToKernel (q.submit result) results
    | .abort => .aborted
    | .leave r => .returned (q.submit result, r, results)

theorem submitToKernel_length {q q' : SubmissionRing E} {r : ResultVoid} {results rest : List ℤ}
    (h : submitToKernel q results = .returned (q', r, rest)) : rest.length < results.length := by
  induction results generalizing q with
  | nil => cases h
  | cons result results ih =>
    rw [submitToKernel] at h
    split at h
    · exact Nat.lt_trans (ih h) (Nat.lt_succ_self _)
    · cases h
    · cases h
      exact Nat.lt_succ_self _

/-- The `while` loop around `io_uring_get_sqe`; `some r` is its early return. -/
def getSqe (q : SubmissionRing E) (results : List ℤ) :
    Outcome (SubmissionRing E × Option ResultVoid × List ℤ) :=
  if q.hasRoom then .returned (q, none, results)
  else match h : submitToKernel q results with
    | .returned (q', r, rest) =>
      have := submitToKernel_length h
      if r.hasError then .returned (q', some r, rest) else getSqe q' rest
    | .aborted => .aborted
    | .waiting => .waiting
termination_by results.length

def submitMany (q : SubmissionRing E) :
    List E → List ℤ → Outcome (SubmissionRing E × ResultVoid)
  | [], _ => .returned (q, .fromValue)
  | submission :: submissions, results => match getSqe q results with
    | .returned (q', none, rest) => submitMany (q'.append submission) submissions rest
    | .returned (q', some r, _) => .returned (q', r)
    | .aborted => .aborted
    | .waiting => .waiting

def submitOne (q : SubmissionRing E) (submission : E) (results : List ℤ) :
    Outcome (SubmissionRing E × ResultVoid) :=
  submitMany q [submission] results

end Synchronized

inductive Context where
  | unsynchronized
  | synchronized
  deriving DecidableEq

def Context.submitOne : Context → SubmissionRing E → E → List ℤ →
    Outcome (SubmissionRing E × ResultVoid)
  | .unsynchronized => Unsynchronized.submitOne
  | .synchronized => Synchronized.submitOne

/-- The SQE is queued behind what was left, and the error word is zero; or it is not
queued, and the error word is not zero. -/
inductive Submitted (q : SubmissionRing E) (submission : E) :
    SubmissionRing E → ResultVoid → Prop where
  | queued (n : ℕ) : Submitted q submission ⟨q.capacity, q.entries.drop n ++ [submission]⟩ .fromValue
  | refused (n : ℕ) (e : ℤ) (he : e ≠ 0) :
      Submitted q submission ⟨q.capacity, q.entries.drop n⟩ (.fromError e)

theorem turn_cases (result : ℤ) :
    (result = 0 ∨ result = EINTR) ∧ Turn.of result = .again ∨
    result = EBADR ∧ Turn.of result = .abort ∨
    result ≠ 0 ∧ result ≠ EINTR ∧ result ≠ EBADR ∧
      Turn.of result = .leave (.fromError (-result)) := by
  unfold Turn.of
  split
  · rename_i h
    exact .inl ⟨.inl h, rfl⟩
  split
  · rename_i h
    exact .inl ⟨.inr h, rfl⟩
  split
  · rename_i h
    exact .inr (.inl ⟨h, rfl⟩)
  · rename_i h₀ h₁ h₂
    exact .inr (.inr ⟨h₀, h₁, h₂, rfl⟩)

theorem turn_leave {result : ℤ} {r : ResultVoid} (h : Turn.of result = .leave r) :
    ∃ e, e ≠ 0 ∧ r = .fromError e := by
  rcases turn_cases result with ⟨-, ht⟩ | ⟨-, ht⟩ | ⟨h₀, -, -, ht⟩
  · cases ht.symm.trans h
  · cases ht.symm.trans h
  · cases ht.symm.trans h
    exact ⟨-result, by omega, rfl⟩

theorem Submitted.submit {q q' : SubmissionRing E} {submission : E} {result : ℤ} {r : ResultVoid}
    (h : Submitted (q.submit result) submission q' r) : Submitted q submission q' r := by
  cases h with
  | queued n =>
    rw [SubmissionRing.submit, List.drop_drop]
    exact .queued _
  | refused n e he =>
    rw [SubmissionRing.submit, List.drop_drop]
    exact .refused _ e he

theorem Unsynchronized.submitOne_spec {q q' : SubmissionRing E} {submission : E}
    {results : List ℤ} {r : ResultVoid}
    (h : Unsynchronized.submitOne q submission results = .returned (q', r)) :
    Submitted q submission q' r := by
  induction results generalizing q with
  | nil =>
    rw [Unsynchronized.submitOne] at h
    split at h
    · cases h
      exact .queued 0
    · cases h
  | cons result results ih =>
    rw [Unsynchronized.submitOne] at h
    split at h
    · cases h
      exact .queued 0
    split at h
    · exact (ih h).submit
    · cases h
    · rename_i r' hr
      cases h
      obtain ⟨e, he, rfl⟩ := turn_leave hr
      exact .refused _ e he

namespace Synchronized

/-- A flush only removes entries, and never returns a result that `has_error` accepts. -/
theorem submitToKernel_spec {q q' : SubmissionRing E} {r : ResultVoid} {results rest : List ℤ}
    (h : submitToKernel q results = .returned (q', r, rest)) :
    r.hasError = false ∧ ∃ n, q' = ⟨q.capacity, q.entries.drop n⟩ := by
  induction results generalizing q with
  | nil => cases h
  | cons result results ih =>
    rw [submitToKernel] at h
    split at h
    · obtain ⟨hr, n, rfl⟩ := ih h
      refine ⟨hr, result.toNat + n, ?_⟩
      rw [SubmissionRing.submit, List.drop_drop]
    · cases h
    · rename_i r' hr
      cases h
      obtain ⟨e, he, rfl⟩ := turn_leave hr
      exact ⟨ResultVoid.hasError_fromError he, _, rfl⟩

/-- The loop around `submit_to_kernel` never takes its early return. -/
theorem getSqe_spec {q q' : SubmissionRing E} {o : Option ResultVoid} {results rest : List ℤ}
    (h : getSqe q results = .returned (q', o, rest)) :
    o = none ∧ ∃ n, q' = ⟨q.capacity, q.entries.drop n⟩ := by
  fun_induction getSqe q results with
  | case1 q results hroom =>
    cases h
    exact ⟨rfl, 0, rfl⟩
  | case2 q results hroom q₁ r rest₁ hk hlen herr =>
    rw [(submitToKernel_spec hk).1] at herr
    cases herr
  | case3 q results hroom q₁ r rest₁ hk hlen herr ih =>
    obtain ⟨-, n, rfl⟩ := submitToKernel_spec hk
    obtain ⟨ho, m, rfl⟩ := ih h
    exact ⟨ho, n + m, by rw [List.drop_drop]⟩
  | case4 => cases h
  | case5 => cases h

theorem submitOne_spec {q q' : SubmissionRing E} {submission : E} {results : List ℤ}
    {r : ResultVoid} (h : submitOne q submission results = .returned (q', r)) :
    Submitted q submission q' r := by
  unfold submitOne submitMany at h
  split at h
  · rename_i q₁ rest hs
    obtain ⟨-, n, rfl⟩ := getSqe_spec hs
    cases h
    exact .queued n
  · rename_i hs
    cases (getSqe_spec hs).1
  · cases h
  · cases h

end Synchronized

theorem Context.submitOne_spec {ctx : Context} {q q' : SubmissionRing E} {submission : E}
    {results : List ℤ} {r : ResultVoid}
    (h : ctx.submitOne q submission results = .returned (q', r)) :
    Submitted q submission q' r := by
  cases ctx with
  | unsynchronized => exact Unsynchronized.submitOne_spec h
  | synchronized => exact Synchronized.submitOne_spec h

end BadIo.Uring
