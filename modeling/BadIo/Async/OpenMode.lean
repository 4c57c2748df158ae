import Mathlib.Data.BitVec

namespace BadIo.OpenMode

def oRdonly : BitVec 32 := 0
def oWronly : BitVec 32 := 1
def oRdwr : BitVec 32 := 2
def oAccmode : BitVec 32 := 3
def oCreat : BitVec 32 := 0x40
def oExcl : BitVec 32 := 0x80
def oTrunc : BitVec 32 := 0x200
def oAppend : BitVec 32 := 0x400
def oCloexec : BitVec 32 := 0x80000
def defFileMode : BitVec 32 := 0x1b6

@[ext] structure Seen where
  hasPlus : Bool
  hasRead : Bool
  hasWrite : Bool
  hasAppend : Bool
  hasCloexec : Bool
  hasExclusive : Bool
  deriving DecidableEq

def Seen.nothing : Seen := ⟨false, false, false, false, false, false⟩

/-- The `switch` of the loop; other characters are ignored. -/
def Seen.mark (s : Seen) : Char → Seen
  | '+' => { s with hasPlus := true }
  | 'r' => { s with hasRead := true }
  | 'w' => { s with hasWrite := true }
  | 'a' => { s with hasAppend := true }
  | 'e' => { s with hasCloexec := true }
  | 'x' => { s with hasExclusive := true }
  | _ => s

def goesOn (c : Char) : Bool := c ≠ Char.ofNat 0 && c ≠ ','

/-- The loop; the end of the list stands for the terminator. -/
def scan (s : Seen) : List Char → Seen
  | [] => s
  | c :: cs => if goesOn c then scan (s.mark c) cs else s

def times (x : BitVec 32) (b : Bool) : BitVec 32 := x * BitVec.ofNat 32 b.toNat

def Seen.flags (s : Seen) : BitVec 32 :=
  let flags := times oCloexec s.hasCloexec ||| times oExcl s.hasExclusive
  if s.hasPlus then
    flags ||| (times (oRdwr ||| 0) s.hasRead ||| times (oRdwr ||| oCreat ||| oTrunc) s.hasWrite |||
      times (oRdwr ||| oCreat ||| oAppend) s.hasAppend)
  else
    flags ||| (times (oRdonly ||| 0) s.hasRead |||
      times (oWronly ||| oCreat ||| oTrunc) s.hasWrite |||
      times (oWronly ||| oCreat ||| oAppend) s.hasAppend)

structure InvalidArgument where
  what : String
  deriving DecidableEq

def Seen.outcome (s : Seen) : Except InvalidArgument (BitVec 32 × BitVec 32) :=
  if s.hasRead.toNat + s.hasWrite.toNat + s.hasAppend.toNat ≠ 1 then
    .error ⟨"invalid mode was provided"⟩
  else .ok (s.flags, defFileMode)

/-- The exception, or the flags and the file mode that the other overload is called with. -/
def asyncOpen (mode : List Char) : Except InvalidArgument (BitVec 32 × BitVec 32) :=
  (scan .nothing mode).outcome

def part (mode : List Char) : List Char := mode.takeWhile goesOn

def letters : List Char := ['+', 'r', 'w', 'a', 'e', 'x']

/-- The different letters that say what to open the file for. -/
def purposes (mode : List Char) : List Char := ['r', 'w', 'a'].filter fun c => c ∈ part mode

/-- The flags of `fopen` for a mode that begins with `first`. -/
structure FopenFlags (first : Char) (rest : List Char) (flags : BitVec 32) : Prop where
  access : flags &&& oAccmode =
    if '+' ∈ rest then oRdwr else if first = 'r' then oRdonly else oWronly
  creat : flags &&& oCreat = if first = 'w' ∨ first = 'a' then oCreat else 0
  trunc : flags &&& oTrunc = if first = 'w' then oTrunc else 0
  append : flags &&& oAppend = if first = 'a' then oAppend else 0
  cloexec : flags &&& oCloexec = if 'e' ∈ rest then oCloexec else 0
  excl : flags &&& oExcl = if 'x' ∈ rest then oExcl else 0
  others : flags &&& ~~~(oAccmode ||| oCreat ||| oTrunc ||| oAppend ||| oCloexec ||| oExcl) = 0

structure ModeRight (mode : List Char) : Prop where
  throws : (∃ e, asyncOpen mode = .error e) ↔ (purposes mode).length ≠ 1
  depends : ∀ mode', (∀ c ∈ letters, c ∈ part mode ↔ c ∈ part mode') →
    asyncOpen mode = asyncOpen mode'
  fopen : ∀ first rest, part mode = first :: rest → first ∈ ['r', 'w', 'a'] →
    (∀ c ∈ rest, c ∈ ['+', 'b', 'e', 'x']) →
    ∃ flags, asyncOpen mode = .ok (flags, defFileMode) ∧ FopenFlags first rest flags

def Seen.has (s : Seen) : Char → Bool
  | '+' => s.hasPlus
  | 'r' => s.hasRead
  | 'w' => s.hasWrite
  | 'a' => s.hasAppend
  | 'e' => s.hasCloexec
  | 'x' => s.hasExclusive
  | _ => false

theorem Seen.ext_has {s t : Seen} (h : ∀ c ∈ letters, s.has c = t.has c) : s = t := by
  apply Seen.ext
  · exact h '+' (by decide)
  · exact h 'r' (by decide)
  · exact h 'w' (by decide)
  · exact h 'a' (by decide)
  · exact h 'e' (by decide)
  · exact h 'x' (by decide)

theorem nothing_has (d : Char) : Seen.nothing.has d = false := by
  unfold Seen.has
  split <;> rfl

theorem mark_has (s : Seen) (c : Char) {d : Char} (hd : d ∈ letters) :
    (s.mark c).has d = (s.has d || decide (c = d)) := by
  simp only [letters, List.mem_cons, List.not_mem_nil, or_false] at hd
  unfold Seen.mark
  rcases hd with rfl | rfl | rfl | rfl | rfl | rfl
  all_goals split <;> simp_all [Seen.has]

theorem scan_has (s : Seen) (mode : List Char) {d : Char} (hd : d ∈ letters) :
    (scan s mode).has d = (s.has d || decide (d ∈ part mode)) := by
  -- after the loop a variable is set if its letter occurs in the part before the comma
  induction mode generalizing s with
  | nil => simp [scan, part]
  | cons c cs ih =>
    rw [scan, part, List.takeWhile_cons]
    split
    · rw [ih, mark_has s c hd, part]
      simp [Bool.or_assoc, eq_comm]
    · simp

theorem scan_nothing_has (mode : List Char) {d : Char} (hd : d ∈ letters) :
    (scan .nothing mode).has d = decide (d ∈ part mode) := by
  rw [scan_has _ _ hd, nothing_has, Bool.false_or]

theorem outcome_error_iff (s : Seen) :
    (∃ e, s.outcome = .error e) ↔ s.hasRead.toNat + s.hasWrite.toNat + s.hasAppend.toNat ≠ 1 := by
  unfold Seen.outcome
  split
  · rename_i h
    exact iff_of_true ⟨_, rfl⟩ h
  · rename_i h
    exact iff_of_false (fun he => by cases he.choose_spec) h

theorem purposes_length (mode : List Char) :
    (purposes mode).length = (decide ('r' ∈ part mode)).toNat + (decide ('w' ∈ part mode)).toNat +
      (decide ('a' ∈ part mode)).toNat := by
  rw [purposes, List.filter_cons, List.filter_cons, List.filter_cons, List.filter_nil]
  cases decide ('r' ∈ part mode) <;> cases decide ('w' ∈ part mode) <;>
    cases decide ('a' ∈ part mode) <;> rfl

def Seen.of (first : Char) (plus cloexec exclusive : Bool) : Seen :=
  ⟨plus, first = 'r', first = 'w', first = 'a', cloexec, exclusive⟩

theorem flags_of : ∀ first ∈ ['r', 'w', 'a'], ∀ plus cloexec exclusive : Bool,
    (Seen.of first plus cloexec exclusive).flags &&& oAccmode =
      (if plus then oRdwr else if first = 'r' then oRdonly else oWronly) ∧
    (Seen.of first plus cloexec exclusive).flags &&& oCreat =
      (if first = 'w' ∨ first = 'a' then oCreat else 0) ∧
    (Seen.of first plus cloexec exclusive).flags &&& oTrunc =
      (if first = 'w' then oTrunc else 0) ∧
    (Seen.of first plus cloexec exclusive).flags &&& oAppend =
      (if first = 'a' then oAppend else 0) ∧
    (Seen.of first plus cloexec exclusive).flags &&& oCloexec = (if cloexec then oCloexec else 0) ∧
    (Seen.of first plus cloexec exclusive).flags &&& oExcl = (if exclusive then oExcl else 0) ∧
    (Seen.of first plus cloexec exclusive).flags &&&
      ~~~(oAccmode ||| oCreat ||| oTrunc ||| oAppend ||| oCloexec ||| oExcl) = 0 := by
  intro first hfirst plus cloexec exclusive
  simp only [List.mem_cons, List.not_mem_nil, or_false] at hfirst
  rcases hfirst with rfl | rfl | rfl
  all_goals cases plus <;> cases cloexec <;> cases exclusive
  all_goals exact ⟨rfl, rfl, rfl, rfl, rfl, rfl, rfl⟩

theorem scan_grammar {mode rest : List Char} {first : Char} (hpart : part mode = first :: rest)
    (hfirst : first ∈ ['r', 'w', 'a']) (hrest : ∀ c ∈ rest, c ∈ ['+', 'b', 'e', 'x']) :
    scan .nothing mode = .of first ('+' ∈ rest) ('e' ∈ rest) ('x' ∈ rest) := by
  -- in a string of the grammar only its first letter is a purpose
  have hpurpose : ∀ d ∈ ['r', 'w', 'a'], d ∈ part mode ↔ first = d := by
    intro d hd
    rw [hpart, List.mem_cons]
    refine ⟨fun h => h.elim Eq.symm fun hmem => ?_, fun h => .inl h.symm⟩
    have hadd := hrest d hmem
    simp only [List.mem_cons, List.not_mem_nil, or_false] at hd hadd
    rcases hd with rfl | rfl | rfl
    · exact absurd hadd (by decide)
    · exact absurd hadd (by decide)
    · exact absurd hadd (by decide)
  have haddition : ∀ d, d ∉ ['r', 'w', 'a'] → (d ∈ part mode ↔ d ∈ rest) := by
    intro d hd
    rw [hpart, List.mem_cons]
    exact or_iff_right fun h => hd (h ▸ hfirst)
  apply Seen.ext_has
  intro c hc
  rw [scan_nothing_has _ hc]
  simp only [letters, List.mem_cons, List.not_mem_nil, or_false] at hc
  rcases hc with rfl | rfl | rfl | rfl | rfl | rfl
  · exact decide_eq_decide.mpr (haddition '+' (by decide))
  · exact decide_eq_decide.mpr (hpurpose 'r' (by decide))
  · exact decide_eq_decide.mpr (hpurpose 'w' (by decide))
  · exact decide_eq_decide.mpr (hpurpose 'a' (by decide))
  · exact decide_eq_decide.mpr (haddition 'e' (by decide))
  · exact decide_eq_decide.mpr (haddition 'x' (by decide))

theorem outcome_of {first : Char} (hfirst : first ∈ ['r', 'w', 'a'])
    (plus cloexec exclusive : Bool) :
    (Seen.of first plus cloexec exclusive).outcome =
      .ok ((Seen.of first plus cloexec exclusive).flags, defFileMode) := by
  apply if_neg
  simp only [List.mem_cons, List.not_mem_nil, or_false] at hfirst
  rcases hfirst with rfl | rfl | rfl
  · exact not_not.mpr rfl
  · exact not_not.mpr rfl
  · exact not_not.mpr rfl

/-- For every mode string: the exception, that the flags are a function of the letters that
occur before the comma, and that they are those of `fopen`. -/
theorem open_mode_right (mode : List Char) : ModeRight mode := by
  refine ⟨?_, fun mode' hsame => ?_, fun first rest hpart hfirst hrest => ?_⟩
  · have hr := scan_nothing_has mode (d := 'r') (by decide)
    have hw := scan_nothing_has mode (d := 'w') (by decide)
    have ha := scan_nothing_has mode (d := 'a') (by decide)
    rw [asyncOpen, outcome_error_iff, purposes_length, ← hr, ← hw, ← ha]
    exact Iff.rfl
  · have hscan : scan .nothing mode = scan .nothing mode' := by
      apply Seen.ext_has
      intro c hc
      rw [scan_nothing_has _ hc, scan_nothing_has _ hc]
      exact decide_eq_decide.mpr (hsame c hc)
    rw [asyncOpen, asyncOpen, hscan]
  · refine ⟨_, (congrArg Seen.outcome (scan_grammar hpart hfirst hrest)).trans
      (outcome_of hfirst _ _ _), ?_⟩
    obtain ⟨haccess, hcreat, htrunc, happend, hcloexec, hexcl, hothers⟩ :=
      flags_of first hfirst ('+' ∈ rest) ('e' ∈ rest) ('x' ∈ rest)
    simp only [decide_eq_true_eq] at haccess hcloexec hexcl
    exact ⟨haccess, hcreat, htrunc, happend, hcloexec, hexcl, hothers⟩

example : asyncOpen ['w', 'b', '+', 'x', ',', 'r'] =
    .ok (oExcl ||| oRdwr ||| oCreat ||| oTrunc, defFileMode) := by decide

end BadIo.OpenMode
