import BadIo.IntegerType

namespace BadIo.Utilities

open IntegerType

variable {I R : IntegerType}

def between (v lo hi : I.Value) : I.Value :=
  if v.val < lo.val then lo else if hi.val < v.val then hi else v

/-- `std::clamp<I>`, which demands bounds in the right order. -/
def stdClamp (v lo hi : I.Value) : Option I.Value :=
  if hi.val < lo.val then none else some (between v lo hi)

def clampBetween (integral : I.Value) (low high : R.Value) : Option R.Value :=
  (stdClamp integral (I.convert low.val) (I.convert high.val)).map fun v => R.convert v.val

def clamp (R : IntegerType) (integral : I.Value) : Option R.Value :=
  clampBetween integral ⟨R.minValue, R.fits_minValue⟩ ⟨R.maxValue, R.fits_maxValue⟩

/-- The value itself where the resulting type has it, and else the bound on its side. -/
structure ClampRight (R : IntegerType) (x : I.Value) : Prop where
  inside : ∀ h : R.Fits x.val, clamp R x = some ⟨x.val, h⟩
  below : x.val < R.minValue → clamp R x = some ⟨R.minValue, R.fits_minValue⟩
  above : R.maxValue < x.val → clamp R x = some ⟨R.maxValue, R.fits_maxValue⟩

theorem clampRight_iff_nearest (R : IntegerType) (x : I.Value) :
    ClampRight R x ↔ clamp R x = some (R.nearest x.val) := by
  constructor
  · intro h
    by_cases hlow : x.val < R.minValue
    · rw [nearest_of_lt hlow]
      exact h.below hlow
    by_cases hhigh : R.maxValue < x.val
    · rw [nearest_of_gt hhigh]
      exact h.above hhigh
    · have hfits : R.Fits x.val := ⟨not_lt.mp hlow, not_lt.mp hhigh⟩
      rw [nearest_of_fits hfits]
      exact h.inside hfits
  · intro h
    refine ⟨fun hfits => ?_, fun hlow => ?_, fun hhigh => ?_⟩
    · rw [h, nearest_of_fits hfits]
    · rw [h, nearest_of_lt hlow]
    · rw [h, nearest_of_gt hhigh]

theorem ClampRight.nearest {x : I.Value} (h : ClampRight R x) :
    ∃ u, clamp R x = some u ∧ ∀ v : R.Value, |x.val - u.val| ≤ |x.val - v.val| :=
  ⟨_, (clampRight_iff_nearest R x).mp h, nearest_spec x.val⟩

theorem stdClamp_reversed {v lo hi : I.Value} (h : hi.val < lo.val) : stdClamp v lo hi = none :=
  if_pos h

theorem stdClamp_bounds {v lo hi : I.Value} (hlo : lo.val = R.minValue) (hhi : hi.val = R.maxValue) :
    ∃ u, stdClamp v lo hi = some u ∧ u.val = (R.nearest v.val).val := by
  have hle : ¬ hi.val < lo.val := by
    rw [hlo, hhi]
    exact not_lt.mpr R.fits_minValue.2
  refine ⟨_, if_neg hle, ?_⟩
  unfold between
  rw [hlo, hhi]
  by_cases hlow : v.val < R.minValue
  · rw [if_pos hlow, nearest_of_lt hlow]
    exact hlo
  by_cases hhigh : R.maxValue < v.val
  · rw [if_neg hlow, if_pos hhigh, nearest_of_gt hhigh]
    exact hhi
  · rw [if_neg hlow, if_neg hhigh, nearest_of_fits ⟨not_lt.mp hlow, not_lt.mp hhigh⟩]

theorem clamp_eq (R : IntegerType) (x : I.Value) :
    clamp R x = (stdClamp x (I.convert R.minValue) (I.convert R.maxValue)).map fun v =>
      R.convert v.val := rfl

theorem clamp_of_within (h : R.Within I) (x : I.Value) : clamp R x = some (R.nearest x.val) := by
  have hlo := convert_of_fits (h.fits R.fits_minValue)
  have hhi := convert_of_fits (h.fits R.fits_maxValue)
  obtain ⟨u, hu, hval⟩ : ∃ u, stdClamp x (I.convert R.minValue) (I.convert R.maxValue) = some u ∧
      u.val = (R.nearest x.val).val := by
    rw [hlo, hhi]
    exact stdClamp_bounds rfl rfl
  rw [clamp_eq, hu, Option.map_some, hval, convert_of_fits (R.nearest x.val).fits]

theorem convert_minValue (h : I.width ≤ R.digits) : (I.convert R.minValue).val = 0 := by
  have hconvert : I.convert R.minValue = ⟨0, I.fits_zero⟩ := by
    rw [convert_eq_iff, Int.sub_zero]
    cases hs : R.signed with
    | false =>
      rw [minValue_unsigned hs]
      exact Int.dvd_zero _
    | true =>
      rw [minValue_signed hs, Int.dvd_neg]
      exact pow_dvd_pow 2 h
  rw [hconvert]

theorem convert_maxValue (h : I.width ≤ R.digits) {x : I.Value} (hx : 2 ^ I.width ∣ x.val + 1) :
    I.convert R.maxValue = x := by
  have hdvd : 2 ^ I.width ∣ 2 ^ R.digits - (x.val + 1) := Int.dvd_sub (pow_dvd_pow 2 h) hx
  have heq : 2 ^ R.digits - (x.val + 1) = R.maxValue - x.val := by
    rw [maxValue]
    omega
  rw [convert_eq_iff, ← heq]
  exact hdvd

theorem clamp_of_unsigned_within (hI : I.signed = false) (h : I.Within R) (x : I.Value) :
    clamp R x = some (R.nearest x.val) := by
  -- for an unsigned argument they become the bounds of its own type
  have hdigits : I.width ≤ R.digits := by
    rw [width_unsigned hI]
    exact (unsigned_within_iff hI).mp h
  have hmin : (I.convert R.minValue).val = I.minValue := by
    rw [convert_minValue hdigits, minValue_unsigned hI]
  have hmax : I.convert R.maxValue = ⟨I.maxValue, I.fits_maxValue⟩ := by
    apply convert_maxValue hdigits
    show 2 ^ I.width ∣ I.maxValue + 1
    rw [maxValue, width_unsigned hI, Int.sub_add_cancel]
  obtain ⟨u, hu, hval⟩ := stdClamp_bounds (v := x) hmin (congrArg Value.val hmax)
  rw [nearest_of_fits x.fits] at hval
  rw [clamp_eq, hu, Option.map_some, hval, nearest_of_fits (h.fits x.fits),
    convert_of_fits (h.fits x.fits)]

theorem clamp_of_signed (hI : I.signed = true) (h : ¬ R.Within I) (x : I.Value) :
    clamp R x = none := by
  -- for a signed argument of a smaller type they become 0 and -1
  rw [within_signed_iff hI] at h
  have hdigits : I.width ≤ R.digits := by
    rw [width_signed hI]
    omega
  have hfits : I.Fits (-1) := by
    have hpow := I.pow_digits_pos
    rw [Fits, minValue_signed hI, maxValue]
    omega
  have hmax : I.convert R.maxValue = ⟨-1, hfits⟩ := convert_maxValue hdigits ⟨0, rfl⟩
  rw [clamp_eq, stdClamp_reversed]
  · rfl
  · rw [hmax, convert_minValue hdigits]
    show (-1 : ℤ) < 0
    decide

theorem clamp_of_unsigned (hI : I.signed = false) (h : ¬ R.Within I) (h' : ¬ I.Within R)
    (x : I.Value) : clamp R x = none := by
  -- for an unsigned argument and a signed result that is not wider, the lower bound becomes
  -- greater than the upper one
  rw [unsigned_within_iff hI] at h'
  have hR : R.signed = true := by
    by_contra hs
    rw [Bool.not_eq_true] at hs
    rw [unsigned_within_iff hs] at h
    omega
  have hpow := R.pow_digits_pos
  have hle : (2 : ℤ) ^ R.digits * 2 ≤ 2 ^ I.width := by
    rw [← Int.pow_succ, width_unsigned hI]
    exact Int.le_of_dvd I.pow_digits_pos (pow_dvd_pow 2 (by omega))
  have hlow : I.Fits (2 ^ I.width - 2 ^ R.digits) := by
    rw [Fits, minValue_unsigned hI, maxValue, ← width_unsigned hI]
    omega
  have hhigh : I.Fits R.maxValue := by
    rw [Fits, minValue_unsigned hI, maxValue, maxValue, ← width_unsigned hI]
    omega
  have hmin : I.convert R.minValue = ⟨_, hlow⟩ := by
    rw [convert_eq_iff, minValue_signed hR]
    show 2 ^ I.width ∣ -2 ^ R.digits - (2 ^ I.width - 2 ^ R.digits)
    exact ⟨-1, by omega⟩
  rw [clamp_eq, stdClamp_reversed]
  · rfl
  · rw [hmin, convert_of_fits hhigh]
    show R.maxValue < 2 ^ I.width - 2 ^ R.digits
    rw [maxValue]
    omega

/-- For all integer types and values: `clamp` is right exactly if the resulting type is the
smaller one, or is the wider one of an unsigned argument. -/
theorem clamp_right_iff (R : IntegerType) (x : I.Value) :
    ClampRight R x ↔ R.Within I ∨ (I.signed = false ∧ I.Within R) := by
  rw [clampRight_iff_nearest]
  constructor
  · intro h
    by_contra hnone
    rw [not_or, not_and] at hnone
    cases hI : I.signed with
    | false =>
      rw [clamp_of_unsigned hI hnone.1 (hnone.2 hI)] at h
      cases h
    | true =>
      rw [clamp_of_signed hI hnone.1] at h
      cases h
  · rintro (h | ⟨hI, h⟩)
    · exact clamp_of_within h x
    · exact clamp_of_unsigned_within hI h x

def five : int32.Value := ⟨5, by decide⟩

/-- From `int` to `unsigned` the upper bound becomes -1, which is what the comparisons
alone would choose. -/
theorem clamp_reversed : (int32.convert uint32.maxValue).val = -1 ∧ clamp uint32 five = none ∧
    (between five (int32.convert uint32.minValue) (int32.convert uint32.maxValue)).val = -1 ∧
    ¬ ClampRight uint32 five := by
  refine ⟨by decide, by decide, by decide, fun h => ?_⟩
  have hinside := h.inside (by decide)
  have hnone : clamp uint32 five = none := by decide
  rw [hnone] at hinside
  cases hinside

end BadIo.Utilities
