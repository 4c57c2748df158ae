import Mathlib.Algebra.Divisibility.Basic
import Mathlib.Algebra.Group.Int.Defs
import Mathlib.Algebra.Group.Nat.Defs
import Mathlib.Algebra.Order.Group.Unbundled.Int
import Mathlib.Data.Int.Order.Basic
import Mathlib.Tactic.Common

namespace BadIo

structure IntegerType where
  signed : Bool
  width : ℕ
  width_pos : 0 < width

namespace IntegerType

variable (T : IntegerType)

/-- `std::numeric_limits<T>::digits`: all bits but the one for the sign. -/
def digits : ℕ := if T.signed then T.width - 1 else T.width

def minValue : ℤ := if T.signed then -2 ^ T.digits else 0

def maxValue : ℤ := 2 ^ T.digits - 1

def Fits (v : ℤ) : Prop := T.minValue ≤ v ∧ v ≤ T.maxValue

instance (v : ℤ) : Decidable (T.Fits v) := inferInstanceAs (Decidable (_ ∧ _))

@[ext] structure Value where
  val : ℤ
  fits : T.Fits val
  deriving DecidableEq

def Within (U : IntegerType) : Prop := U.minValue ≤ T.minValue ∧ T.maxValue ≤ U.maxValue

instance (U : IntegerType) : Decidable (T.Within U) := inferInstanceAs (Decidable (_ ∧ _))

def int32 : IntegerType := ⟨true, 32, by decide⟩

def uint32 : IntegerType := ⟨false, 32, by decide⟩

def int64 : IntegerType := ⟨true, 64, by decide⟩

def uint64 : IntegerType := ⟨false, 64, by decide⟩

theorem pow_digits_pos : (0 : ℤ) < 2 ^ T.digits := Int.pow_pos (by decide)

theorem minValue_nonpos : T.minValue ≤ 0 := by
  have hpow := T.pow_digits_pos
  unfold minValue
  split
  · omega
  · exact le_rfl

theorem maxValue_nonneg : 0 ≤ T.maxValue := by
  have hpow := T.pow_digits_pos
  rw [maxValue]
  omega

theorem fits_minValue : T.Fits T.minValue :=
  ⟨le_rfl, le_trans T.minValue_nonpos T.maxValue_nonneg⟩

theorem fits_maxValue : T.Fits T.maxValue :=
  ⟨le_trans T.minValue_nonpos T.maxValue_nonneg, le_rfl⟩

theorem fits_zero : T.Fits 0 := ⟨T.minValue_nonpos, T.maxValue_nonneg⟩

variable {T} {U : IntegerType}

theorem width_signed (h : T.signed = true) : T.width = T.digits + 1 := by
  rw [digits, if_pos h, Nat.sub_add_cancel T.width_pos]

theorem width_unsigned (h : T.signed = false) : T.width = T.digits :=
  (if_neg (by rw [h]; decide)).symm

theorem minValue_signed (h : T.signed = true) : T.minValue = -2 ^ T.digits := if_pos h

theorem minValue_unsigned (h : T.signed = false) : T.minValue = 0 := if_neg (by rw [h]; decide)

theorem pow_digits_le_iff : (2 : ℤ) ^ T.digits ≤ 2 ^ U.digits ↔ T.digits ≤ U.digits := by
  constructor
  · intro h
    by_contra hlt
    have hnat : 2 ^ U.digits < 2 ^ T.digits := Nat.pow_lt_pow_right (by decide) (by omega)
    have hint : ((2 ^ U.digits : ℕ) : ℤ) < (2 ^ T.digits : ℕ) := Int.ofNat_lt.mpr hnat
    rw [Int.natCast_pow, Int.natCast_pow] at hint
    exact absurd h (not_le.mpr hint)
  · intro h
    have hnat : 2 ^ T.digits ≤ 2 ^ U.digits := Nat.pow_le_pow_right (by decide) h
    have hint : ((2 ^ T.digits : ℕ) : ℤ) ≤ (2 ^ U.digits : ℕ) := Int.ofNat_le.mpr hnat
    rwa [Int.natCast_pow, Int.natCast_pow] at hint

theorem within_signed_iff (h : U.signed = true) : T.Within U ↔ T.digits ≤ U.digits := by
  have hpow := T.pow_digits_pos
  have hpow' := U.pow_digits_pos
  rw [Within, maxValue, maxValue, minValue_signed h, ← pow_digits_le_iff]
  unfold minValue
  split
  · omega
  · omega

theorem within_unsigned_iff (h : U.signed = false) :
    T.Within U ↔ T.signed = false ∧ T.digits ≤ U.digits := by
  have hpow := T.pow_digits_pos
  rw [Within, maxValue, maxValue, minValue_unsigned h, ← pow_digits_le_iff]
  cases hs : T.signed with
  | false =>
    rw [minValue_unsigned hs]
    simp
  | true =>
    rw [minValue_signed hs]
    simp only [Bool.true_eq_false, false_and, iff_false]
    omega

theorem unsigned_within_iff (h : T.signed = false) : T.Within U ↔ T.digits ≤ U.digits := by
  cases hs : U.signed with
  | false =>
    rw [within_unsigned_iff hs]
    exact and_iff_right h
  | true => exact within_signed_iff hs

theorem Within.fits (h : T.Within U) {v : ℤ} (hv : T.Fits v) : U.Fits v :=
  ⟨le_trans h.1 hv.1, le_trans hv.2 h.2⟩

variable (T)

theorem maxValue_eq : T.maxValue = T.minValue + 2 ^ T.width - 1 := by
  cases hs : T.signed with
  | false =>
    rw [maxValue, minValue_unsigned hs, width_unsigned hs]
    omega
  | true =>
    rw [maxValue, minValue_signed hs, width_signed hs, Int.pow_succ]
    omega

/-- The value that is congruent to the number. -/
def convert (v : ℤ) : T.Value where
  val := T.minValue + (v - T.minValue) % 2 ^ T.width
  fits := by
    have hpow : (0 : ℤ) < 2 ^ T.width := Int.pow_pos (by decide)
    have hnonneg := Int.emod_nonneg (v - T.minValue) (Int.ne_of_gt hpow)
    have hlt := Int.emod_lt_of_pos (v - T.minValue) hpow
    rw [Fits, maxValue_eq]
    omega

variable {T}

theorem convert_eq_iff {v : ℤ} {x : T.Value} : T.convert v = x ↔ 2 ^ T.width ∣ v - x.val := by
  have hpow : (0 : ℤ) < 2 ^ T.width := Int.pow_pos (by decide)
  have hx := x.fits
  rw [Fits, maxValue_eq] at hx
  have hdiff : x.val - T.minValue - (v - T.minValue) = -(v - x.val) := by omega
  have hemod : (v - T.minValue) % 2 ^ T.width = x.val - T.minValue ↔ 2 ^ T.width ∣ v - x.val := by
    rw [Int.emod_eq_iff (Int.ne_of_gt hpow), hdiff, Int.dvd_neg]
    constructor
    · intro h
      exact h.2.2
    · intro h
      refine ⟨?_, ?_, h⟩
      · omega
      · omega
  rw [← hemod, Value.ext_iff]
  show T.minValue + (v - T.minValue) % 2 ^ T.width = x.val ↔ _
  omega

theorem convert_of_fits {v : ℤ} (h : T.Fits v) : T.convert v = ⟨v, h⟩ := by
  rw [convert_eq_iff, Int.sub_self]
  exact Int.dvd_zero _

variable (T)

def checked (v : ℤ) : Option T.Value := if h : T.Fits v then some ⟨v, h⟩ else none

variable {T}

theorem checked_eq_some {v : ℤ} {x : T.Value} : T.checked v = some x ↔ x.val = v := by
  unfold checked
  split
  · rw [Option.some.injEq, Value.ext_iff]
    exact eq_comm
  · constructor
    · intro h
      cases h
    · intro h
      exact absurd (h ▸ x.fits) ‹_›

theorem checked_of_fits {v : ℤ} (h : T.Fits v) : T.checked v = some ⟨v, h⟩ :=
  checked_eq_some.mpr rfl

theorem Fits.of_between {v w : ℤ} (h : T.Fits v) (hw : 0 ≤ w ∧ w ≤ v ∨ v ≤ w ∧ w ≤ 0) :
    T.Fits w := by
  rcases hw with ⟨hw, hwv⟩ | ⟨hvw, hw⟩
  · exact ⟨le_trans T.minValue_nonpos hw, le_trans hwv h.2⟩
  · exact ⟨le_trans h.1 hvw, le_trans hw T.maxValue_nonneg⟩

theorem Fits.tdiv {v : ℤ} (h : T.Fits v) (d : ℕ) : T.Fits (v.tdiv d) := by
  have hle := Int.natAbs_tdiv_le_natAbs v d
  apply h.of_between
  rcases le_total 0 v with hv | hv
  · have hq : 0 ≤ v.tdiv d := Int.tdiv_nonneg hv (Int.natCast_nonneg d)
    omega
  · have hq : 0 ≤ (-v).tdiv d := Int.tdiv_nonneg (by omega) (Int.natCast_nonneg d)
    rw [Int.neg_tdiv] at hq
    omega

theorem tdiv_mul_between (v : ℤ) (d : ℕ) :
    0 ≤ v.tdiv d * d ∧ v.tdiv d * d ≤ v ∨ v ≤ v.tdiv d * d ∧ v.tdiv d * d ≤ 0 := by
  have hd := Int.natCast_nonneg d
  have hsplit := Int.tdiv_mul_add_tmod v d
  rcases le_total 0 v with hv | hv
  · have hr := Int.tmod_nonneg (d : ℤ) hv
    have hq : 0 ≤ v.tdiv d * d := Int.mul_nonneg (Int.tdiv_nonneg hv hd) hd
    omega
  · have hr := Int.tmod_nonneg (d : ℤ) (Int.neg_nonneg.mpr hv)
    have hq := Int.mul_nonneg (Int.tdiv_nonneg (Int.neg_nonneg.mpr hv) hd) hd
    rw [Int.neg_tmod] at hr
    rw [Int.neg_tdiv, Int.neg_mul] at hq
    omega

theorem Fits.tdiv_mul {v : ℤ} (h : T.Fits v) (d : ℕ) : T.Fits (v.tdiv d * d) :=
  h.of_between (tdiv_mul_between v d)

theorem Fits.sub_tdiv_mul {v : ℤ} (h : T.Fits v) (d : ℕ) : T.Fits (v - v.tdiv d * d) := by
  have hbetween := tdiv_mul_between v d
  apply h.of_between
  omega

variable (T)

/-- The mathematical clamp. -/
def nearest (v : ℤ) : T.Value where
  val := max T.minValue (min v T.maxValue)
  fits := by
    have hle := T.fits_minValue.2
    exact ⟨le_max_left _ _, max_le hle (min_le_right _ _)⟩

variable {T}

theorem nearest_of_fits {v : ℤ} (h : T.Fits v) : T.nearest v = ⟨v, h⟩ := by
  apply Value.ext
  show max T.minValue (min v T.maxValue) = v
  rw [min_eq_left h.2, max_eq_right h.1]

theorem nearest_of_lt {v : ℤ} (h : v < T.minValue) : T.nearest v = ⟨_, T.fits_minValue⟩ := by
  apply Value.ext
  exact max_eq_left (le_trans (min_le_left _ _) h.le)

theorem nearest_of_gt {v : ℤ} (h : T.maxValue < v) : T.nearest v = ⟨_, T.fits_maxValue⟩ := by
  apply Value.ext
  show max T.minValue (min v T.maxValue) = T.maxValue
  rw [min_eq_right h.le, max_eq_right T.fits_maxValue.1]

/-- No value of the type is nearer. -/
theorem nearest_spec (v : ℤ) (x : T.Value) : |v - (T.nearest v).val| ≤ |v - x.val| := by
  have hx := x.fits
  by_cases hlow : v < T.minValue
  · rw [nearest_of_lt hlow, abs_of_neg (sub_neg_of_lt hlow), abs_of_neg]
    · have := hx.1
      omega
    · exact sub_neg_of_lt (lt_of_lt_of_le hlow hx.1)
  by_cases hhigh : T.maxValue < v
  · rw [nearest_of_gt hhigh, abs_of_pos (sub_pos_of_lt hhigh), abs_of_pos]
    · have := hx.2
      omega
    · exact sub_pos_of_lt (lt_of_le_of_lt hx.2 hhigh)
  · rw [nearest_of_fits ⟨not_lt.mp hlow, not_lt.mp hhigh⟩, sub_self, abs_zero]
    exact abs_nonneg _

end IntegerType

end BadIo
