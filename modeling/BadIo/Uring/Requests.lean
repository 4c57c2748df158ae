import BadIo.Uring.Submit
import BadIo.Utilities.Clamp

namespace BadIo.Uring.Requests

open IntegerType Utilities

/-- The functions of liburing that prepare an SQE, with their argument types; `R` are SQEs
without user data. -/
structure Liburing (R : Type*) where
  prepReadv2 (fd : int32.Value) (iovecs : ℕ) (nrVecs : uint32.Value) (offset : uint64.Value)
    (flags : int32.Value) : R
  prepWritev2 (fd : int32.Value) (iovecs : ℕ) (nrVecs : uint32.Value) (offset : uint64.Value)
    (flags : int32.Value) : R
  prepRead (fd : int32.Value) (buf : ℕ) (nbytes : uint32.Value) (offset : uint64.Value) : R
  prepWrite (fd : int32.Value) (buf : ℕ) (nbytes : uint32.Value) (offset : uint64.Value) : R
  prepSplice (fdIn : int32.Value) (offIn : int64.Value) (fdOut : int32.Value)
    (offOut : int64.Value) (nbytes : uint32.Value) (flags : uint32.Value) : R
  prepTee (fdIn fdOut : int32.Value) (nbytes : uint32.Value) (flags : uint32.Value) : R
  prepSend (sockfd : int32.Value) (buf : ℕ) (len : uint64.Value) (flags : int32.Value) : R
  prepRecv (sockfd : int32.Value) (buf : ℕ) (len : uint64.Value) (flags : int32.Value) : R
  len : R → uint32.Value

/-- Each function converts its length to the type of the field. -/
structure Liburing.StoresLength {R : Type*} (lib : Liburing R) : Prop where
  readv2 : ∀ fd iovecs n offset flags,
    lib.len (lib.prepReadv2 fd iovecs n offset flags) = uint32.convert n.val
  writev2 : ∀ fd iovecs n offset flags,
    lib.len (lib.prepWritev2 fd iovecs n offset flags) = uint32.convert n.val
  read : ∀ fd buf n offset, lib.len (lib.prepRead fd buf n offset) = uint32.convert n.val
  write : ∀ fd buf n offset, lib.len (lib.prepWrite fd buf n offset) = uint32.convert n.val
  splice : ∀ fdIn offIn fdOut offOut n flags,
    lib.len (lib.prepSplice fdIn offIn fdOut offOut n flags) = uint32.convert n.val
  tee : ∀ fdIn fdOut n flags, lib.len (lib.prepTee fdIn fdOut n flags) = uint32.convert n.val
  send : ∀ sockfd buf n flags, lib.len (lib.prepSend sockfd buf n flags) = uint32.convert n.val
  recv : ∀ sockfd buf n flags, lib.len (lib.prepRecv sockfd buf n flags) = uint32.convert n.val

/-- What a function does before `submit` returns: a failed assertion ends the program. -/
inductive Issued (R : Type*) where
  | aborted
  | undefined
  | submitted (request : R)

/-- `ndebug`: assertions are compiled out. -/
structure Env where
  ndebug : Bool
  features : BitVec 32

variable {R : Type*}

def Env.assert (env : Env) (condition : Bool) (rest : Issued R) : Issued R :=
  if env.ndebug || condition then rest else .aborted

def ioringFeatRwCurPos : BitVec 32 := 8#32

def Env.hasFeature (env : Env) (feature : BitVec 32) : Bool := env.features &&& feature ≠ 0

def promote (b : Bool) : ℤ := b.toNat

/-- `offset == -1 + !has_feature(IORING_FEAT_RW_CUR_POS) == 2`: the negation comes before
the sum, the sum before the comparisons, and these are taken from left to right. -/
def Env.curPosCondition (env : Env) (offset : int64.Value) : Bool :=
  let sum := -1 + promote (!env.hasFeature ioringFeatRwCurPos)
  let first : Bool := offset.val = sum
  promote first = 2

def clamped (n : uint64.Value) (prep : uint32.Value → R) : Issued R :=
  match clamp uint32 n with
  | some length => .submitted (prep length)
  | none => .undefined

def Env.positioned (env : Env) (n : uint64.Value) (offset : int64.Value)
    (prep : uint32.Value → uint64.Value → R) : Issued R :=
  env.assert (-1 ≤ offset.val) <| env.assert (env.curPosCondition offset) <|
    clamped n fun length => prep length (uint64.convert offset.val)

variable (lib : Liburing R) (env : Env)

def asyncReadv (fd : int32.Value) (iov : ℕ) (iovLen : uint64.Value) (offset : int64.Value)
    (flags : int32.Value) : Issued R :=
  env.positioned iovLen offset fun n off => lib.prepReadv2 fd iov n off flags

def asyncWritev (fd : int32.Value) (iov : ℕ) (iovLen : uint64.Value) (offset : int64.Value)
    (flags : int32.Value) : Issued R :=
  env.positioned iovLen offset fun n off => lib.prepWritev2 fd iov n off flags

def asyncRead (fd : int32.Value) (buf : ℕ) (bufLen : uint64.Value) (offset : int64.Value) :
    Issued R :=
  env.positioned bufLen offset (lib.prepRead fd buf)

def asyncWrite (fd : int32.Value) (buf : ℕ) (bufLen : uint64.Value) (offset : int64.Value) :
    Issued R :=
  env.positioned bufLen offset (lib.prepWrite fd buf)

def asyncSplice (fdIn : int32.Value) (offIn : int64.Value) (fdOut : int32.Value)
    (offOut : int64.Value) (len : uint64.Value) (flags : uint32.Value) : Issued R :=
  clamped len fun n => lib.prepSplice fdIn offIn fdOut offOut n flags

def asyncTee (fdIn fdOut : int32.Value) (len : uint64.Value) (flags : uint32.Value) : Issued R :=
  clamped len fun n => lib.prepTee fdIn fdOut n flags

/-- The length goes to liburing as it is. -/
def asyncSend (fd : int32.Value) (buf : ℕ) (bufLen : uint64.Value) (flags : int32.Value) :
    Issued R :=
  .submitted (lib.prepSend fd buf bufLen flags)

def asyncRecv (fd : int32.Value) (buf : ℕ) (bufLen : uint64.Value) (flags : int32.Value) :
    Issued R :=
  .submitted (lib.prepRecv fd buf bufLen flags)

inductive Positioned where
  | readv (fd : int32.Value) (iov : ℕ) (flags : int32.Value)
  | writev (fd : int32.Value) (iov : ℕ) (flags : int32.Value)
  | read (fd : int32.Value) (buf : ℕ)
  | write (fd : int32.Value) (buf : ℕ)

inductive Request where
  | positioned (p : Positioned) (offset : int64.Value)
  | splice (fdIn : int32.Value) (offIn : int64.Value) (fdOut : int32.Value) (offOut : int64.Value)
    (flags : uint32.Value)
  | tee (fdIn fdOut : int32.Value) (flags : uint32.Value)
  | send (fd : int32.Value) (buf : ℕ) (flags : int32.Value)
  | recv (fd : int32.Value) (buf : ℕ) (flags : int32.Value)

def Positioned.issue (n : uint64.Value) (offset : int64.Value) : Positioned → Issued R
  | .readv fd iov flags => asyncReadv lib env fd iov n offset flags
  | .writev fd iov flags => asyncWritev lib env fd iov n offset flags
  | .read fd buf => asyncRead lib env fd buf n offset
  | .write fd buf => asyncWrite lib env fd buf n offset

def Positioned.prep (n : uint32.Value) (offset : uint64.Value) : Positioned → R
  | .readv fd iov flags => lib.prepReadv2 fd iov n offset flags
  | .writev fd iov flags => lib.prepWritev2 fd iov n offset flags
  | .read fd buf => lib.prepRead fd buf n offset
  | .write fd buf => lib.prepWrite fd buf n offset

theorem Positioned.issue_eq (p : Positioned) (n : uint64.Value) (offset : int64.Value) :
    p.issue lib env n offset = env.positioned n offset fun m off => p.prep lib m off := by
  cases p <;> rfl

def Request.issue (n : uint64.Value) : Request → Issued R
  | .positioned p offset => p.issue lib env n offset
  | .splice fdIn offIn fdOut offOut flags => asyncSplice lib fdIn offIn fdOut offOut n flags
  | .tee fdIn fdOut flags => asyncTee lib fdIn fdOut n flags
  | .send fd buf flags => asyncSend lib fd buf n flags
  | .recv fd buf flags => asyncRecv lib fd buf n flags

/-- The offsets that the documentation allows. -/
def Env.Documented (offset : int64.Value) : Prop :=
  0 ≤ offset.val ∨ offset.val = -1 ∧ env.hasFeature ioringFeatRwCurPos = true

/-- With assertions, each of the four operations aborts for the other offsets only. -/
structure AssertionsRight (features : BitVec 32) (offset : int64.Value) : Prop where
  admits : Env.Documented ⟨false, features⟩ offset → ∀ (p : Positioned) n,
    p.issue lib ⟨false, features⟩ n offset ≠ .aborted
  rejects : ¬ Env.Documented ⟨false, features⟩ offset → ∀ (p : Positioned) n,
    p.issue lib ⟨false, features⟩ n offset = .aborted

/-- The second comparison compares a truth value with 2. -/
theorem curPosCondition_false (offset : int64.Value) : env.curPosCondition offset = false := by
  unfold Env.curPosCondition
  dsimp only
  generalize (offset.val = -1 + promote _ : Bool) = first
  cases first <;> rfl

/-- With assertions the operations at an offset always abort. -/
theorem positioned_aborts (features : BitVec 32) (n : uint64.Value) (offset : int64.Value)
    (prep : uint32.Value → uint64.Value → R) :
    Env.positioned ⟨false, features⟩ n offset prep = .aborted := by
  rw [Env.positioned, curPosCondition_false]
  unfold Env.assert
  split <;> rfl

theorem issue_aborts (features : BitVec 32) (p : Positioned) (n : uint64.Value)
    (offset : int64.Value) : p.issue lib ⟨false, features⟩ n offset = .aborted := by
  rw [p.issue_eq]
  exact positioned_aborts features n offset _

theorem not_documented_iff (offset : int64.Value) :
    ¬ env.Documented offset ↔
      offset.val < -1 ∨ offset.val = -1 ∧ env.hasFeature ioringFeatRwCurPos = false := by
  rw [Env.Documented, not_or, not_and, Bool.not_eq_true]
  constructor
  · rintro ⟨hneg, hfeature⟩
    by_cases hcur : offset.val = -1
    · exact .inr ⟨hcur, hfeature hcur⟩
    · left
      omega
  · rintro (hlow | ⟨hcur, hfeature⟩)
    · refine ⟨?_, fun hcur => ?_⟩
      · omega
      · omega
    · refine ⟨?_, fun _ => hfeature⟩
      omega

/-- For all feature words and offsets: the assertions are right exactly about the offsets
that they ought to reject. -/
theorem assertions_right_iff (features : BitVec 32) (offset : int64.Value) :
    AssertionsRight lib features offset ↔ offset.val < -1 ∨
      offset.val = -1 ∧ Env.hasFeature ⟨false, features⟩ ioringFeatRwCurPos = false := by
  rw [← not_documented_iff]
  constructor
  · intro h hd
    have fd : int32.Value := ⟨0, int32.fits_zero⟩
    exact h.admits hd (.read fd 0) ⟨0, uint64.fits_zero⟩ (issue_aborts lib features _ _ _)
  · intro hd
    exact ⟨fun h => (hd h).elim, fun _ p n => issue_aborts lib features p n offset⟩

/-- Where a length is submitted it is the given one or the largest, no request becomes
empty, and all operations agree. -/
structure LengthsRight (n : uint64.Value) : Prop where
  saturates : ∀ env (r : Request) op, r.issue lib env n = .submitted op →
    (lib.len op).val = min n.val (2 ^ 32 - 1)
  nonempty : n.val ≠ 0 → ∀ env (r : Request) op, r.issue lib env n = .submitted op →
    (lib.len op).val ≠ 0
  agree : ∀ env (r r' : Request) op op', r.issue lib env n = .submitted op →
    r'.issue lib env n = .submitted op' → lib.len op = lib.len op'

variable {lib env}

theorem clamp_length (n : uint64.Value) : clamp uint32 n = some (uint32.nearest n.val) :=
  clamp_of_within (by decide) n

theorem nearest_length (n : uint64.Value) : (uint32.nearest n.val).val = min n.val (2 ^ 32 - 1) := by
  have hmin : uint64.minValue ≤ n.val := n.fits.1
  show max uint32.minValue (min n.val uint32.maxValue) = _
  have hzero : uint32.minValue = 0 := rfl
  have hzero' : uint64.minValue = 0 := rfl
  have hmax : uint32.maxValue = 2 ^ 32 - 1 := rfl
  rw [hzero, hmax]
  omega

theorem clamped_eq (n : uint64.Value) (prep : uint32.Value → R) :
    clamped n prep = .submitted (prep (uint32.nearest n.val)) := by
  rw [clamped, clamp_length]

theorem positioned_submitted {n : uint64.Value} {offset : int64.Value}
    {prep : uint32.Value → uint64.Value → R} {op : R}
    (h : env.positioned n offset prep = .submitted op) :
    op = prep (uint32.nearest n.val) (uint64.convert offset.val) := by
  unfold Env.positioned Env.assert at h
  split at h
  · split at h
    · rw [clamped_eq] at h
      cases h
      rfl
    · cases h
  · cases h

theorem convert_length (n : ℤ) : (uint32.convert n).val = n % 2 ^ 32 := by
  show 0 + (n - 0) % 2 ^ 32 = _
  rw [Int.zero_add, Int.sub_zero]

theorem Liburing.StoresLength.positioned (h : lib.StoresLength) (p : Positioned)
    (m : uint32.Value) (off : uint64.Value) : lib.len (p.prep lib m off) = uint32.convert m.val := by
  cases p with
  | readv fd iov flags => exact h.readv2 _ _ _ _ _
  | writev fd iov flags => exact h.writev2 _ _ _ _ _
  | read fd buf => exact h.read _ _ _ _
  | write fd buf => exact h.write _ _ _ _

def Request.direct : Request → Bool
  | .send _ _ _ => true
  | .recv _ _ _ => true
  | _ => false

theorem issue_len (h : lib.StoresLength) {n : uint64.Value} {r : Request} {op : R}
    (hop : r.issue lib env n = .submitted op) :
    (lib.len op).val = if r.direct then n.val % 2 ^ 32 else min n.val (2 ^ 32 - 1) := by
  have hkept : uint32.convert (uint32.nearest n.val).val = uint32.nearest n.val :=
    convert_of_fits (uint32.nearest n.val).fits
  cases r with
  | positioned p offset =>
    rw [Request.issue, p.issue_eq] at hop
    rw [positioned_submitted hop, h.positioned, hkept]
    exact nearest_length n
  | splice fdIn offIn fdOut offOut flags =>
    rw [Request.issue, asyncSplice, clamped_eq] at hop
    cases hop
    rw [h.splice, hkept]
    exact nearest_length n
  | tee fdIn fdOut flags =>
    rw [Request.issue, asyncTee, clamped_eq] at hop
    cases hop
    rw [h.tee, hkept]
    exact nearest_length n
  | send fd buf flags =>
    cases hop
    rw [h.send]
    exact convert_length n.val
  | recv fd buf flags =>
    cases hop
    rw [h.recv]
    exact convert_length n.val

/-- For all lengths: they are stored as they should be exactly if the length fits the field,
or `async_send` and `async_recv` reduce it to the largest. -/
theorem lengths_right_iff (lib : Liburing R) (h : lib.StoresLength) (n : uint64.Value) :
    LengthsRight lib n ↔ n.val < 2 ^ 32 ∨ n.val % 2 ^ 32 = 2 ^ 32 - 1 := by
  have hn : 0 ≤ n.val := n.fits.1
  constructor
  · intro hright
    have fd : int32.Value := ⟨0, int32.fits_zero⟩
    have hsend := hright.saturates ⟨true, 0⟩ (.send fd 0 fd) _ rfl
    rw [h.send, convert_length] at hsend
    omega
  · intro hn'
    have hsaturates : ∀ env (r : Request) op, r.issue lib env n = .submitted op →
        (lib.len op).val = min n.val (2 ^ 32 - 1) := by
      intro env r op hop
      rw [issue_len h hop]
      split
      · omega
      · rfl
    refine ⟨hsaturates, fun hne env r op hop => ?_, fun env r r' op op' hop hop' => ?_⟩
    · rw [hsaturates env r op hop]
      omega
    · apply Value.ext
      rw [hsaturates env r op hop, hsaturates env r' op' hop']

theorem submit_adds {ctx : Context} {s s' : State R} {op : R} {completion : AllocatorAware.Pointer}
    {throws : Bool} {results : List ℤ} {res : Option (Native.Result AllocatorAware.Pointer)}
    (h : submit ctx s op completion throws results = .returned (s', res)) :
    ∀ e ∈ s'.ring.entries, e ∈ s.ring.entries ∨ e = ⟨op, completion⟩ := by
  cases throws with
  | true =>
    cases h
    exact fun e he => .inl he
  | false =>
    obtain ⟨ring, result, hs, hr⟩ := submit_constructed h
    have hring : s'.ring = ring := by
      rcases hr with ⟨-, rfl, -⟩ | ⟨-, rfl, -⟩
      · rfl
      · rfl
    rw [hring]
    cases Context.submitOne_spec hs with
    | queued n =>
      intro e he
      rcases List.mem_append.mp he with he | he
      · exact .inl (List.mem_of_mem_drop he)
      · exact .inr (List.mem_singleton.mp he)
    | refused n e he => exact fun e he => .inl (List.mem_of_mem_drop he)

theorem queued_len (h : lib.StoresLength) {n : uint64.Value} {r : Request} {op : R}
    (hop : r.issue lib env n = .submitted op) {ctx : Context} {s s' : State R}
    {completion : AllocatorAware.Pointer} {throws : Bool} {results : List ℤ}
    {res : Option (Native.Result AllocatorAware.Pointer)}
    (hs : submit ctx s op completion throws results = .returned (s', res)) :
    ∀ e ∈ s'.ring.entries, e ∉ s.ring.entries →
      (lib.len e.request).val = if r.direct then n.val % 2 ^ 32 else min n.val (2 ^ 32 - 1) := by
  intro e he hnew
  obtain rfl := (submit_adds hs e he).resolve_left hnew
  exact issue_len h hop

structure Prepared where
  opcode : ℕ
  fd : int32.Value
  addr : ℕ
  len : uint32.Value
  off : ℤ
  flags : ℤ
  spliceOffIn : ℤ
  spliceFdIn : ℤ

def prepRw (opcode : ℕ) (fd : int32.Value) (addr : ℕ) (len : ℤ) (off flags : ℤ) : Prepared :=
  ⟨opcode, fd, addr, uint32.convert len, off, flags, 0, 0⟩

def liburing : Liburing Prepared where
  prepReadv2 fd iovecs n offset flags := prepRw 1 fd iovecs n.val offset.val flags.val
  prepWritev2 fd iovecs n offset flags := prepRw 2 fd iovecs n.val offset.val flags.val
  prepRead fd buf n offset := prepRw 22 fd buf n.val offset.val 0
  prepWrite fd buf n offset := prepRw 23 fd buf n.val offset.val 0
  prepSplice fdIn offIn fdOut offOut n flags :=
    { prepRw 30 fdOut 0 n.val offOut.val flags.val with
      spliceOffIn := offIn.val
      spliceFdIn := fdIn.val }
  prepTee fdIn fdOut n flags :=
    { prepRw 33 fdOut 0 n.val 0 flags.val with spliceFdIn := fdIn.val }
  prepSend sockfd buf n flags := prepRw 26 sockfd buf n.val 0 flags.val
  prepRecv sockfd buf n flags := prepRw 27 sockfd buf n.val 0 flags.val
  len := Prepared.len

theorem liburing_storesLength : liburing.StoresLength := by
  refine ⟨?_, ?_, ?_, ?_, ?_, ?_, ?_, ?_⟩
  all_goals intros; rfl

def fourGiB : uint64.Value := ⟨2 ^ 32, by decide⟩

/-- The largest length that the field can hold. -/
theorem lengths_right_largest : LengthsRight liburing ⟨2 ^ 32 - 1, by decide⟩ :=
  (lengths_right_iff liburing liburing_storesLength _).mpr (.inl (by decide))

def fd : int32.Value := ⟨3, by decide⟩

/-- Four GiB to be sent become nothing, and to be written one byte less. -/
theorem lengths_wrong_fourGiB :
    (∃ op, asyncSend liburing fd 0 fourGiB ⟨0, int32.fits_zero⟩ = .submitted op ∧
        op.len.val = 0) ∧
      (∃ op, asyncWrite liburing ⟨true, 0⟩ fd 0 fourGiB ⟨0, int64.fits_zero⟩ = .submitted op ∧
        op.len.val = 2 ^ 32 - 1) ∧
      ¬ LengthsRight liburing fourGiB := by
  refine ⟨⟨_, rfl, rfl⟩, ⟨_, rfl, rfl⟩, fun h => ?_⟩
  exact h.nonempty (by decide) ⟨true, 0⟩ (.send fd 0 ⟨0, int32.fits_zero⟩) _ rfl rfl

/-- A read at the beginning of a file, with all features. -/
theorem assertions_wrong_at_zero :
    Env.Documented ⟨false, BitVec.allOnes 32⟩ ⟨0, int64.fits_zero⟩ ∧
      asyncRead liburing ⟨false, BitVec.allOnes 32⟩ fd 0 fourGiB ⟨0, int64.fits_zero⟩ = .aborted ∧
      ¬ AssertionsRight liburing (BitVec.allOnes 32) ⟨0, int64.fits_zero⟩ := by
  have hdocumented : Env.Documented ⟨false, BitVec.allOnes 32⟩ ⟨0, int64.fits_zero⟩ := .inl le_rfl
  refine ⟨hdocumented, rfl, fun h => ?_⟩
  exact h.admits hdocumented (.read fd 0) fourGiB rfl

end BadIo.Uring.Requests
