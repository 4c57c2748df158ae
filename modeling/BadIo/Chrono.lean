import BadIo.IntegerType
import Mathlib.Data.Rat.Floor
import Mathlib.Tactic.FieldSimp
import Mathlib.Tactic.Linarith
import Mathlib.Tactic.Positivity

namespace BadIo.Chrono

open IntegerType

def truncate (q : ℚ) : ℤ := q.num.tdiv q.den

theorem truncate_of_nonneg {q : ℚ} (h : 0 ≤ q) : truncate q = ⌊q⌋ := by
  rw [truncate, Int.tdiv_eq_ediv_of_nonneg (Rat.num_nonneg.mpr h), Rat.floor_def']

theorem truncate_neg (q : ℚ) : truncate (-q) = -truncate q := by
  rw [truncate, Rat.num_neg_eq_neg_num, Rat.den_neg_eq_den, Int.neg_tdiv, truncate]

theorem truncate_of_nonpos {q : ℚ} (h : q ≤ 0) : truncate q = ⌈q⌉ := by
  rw [← neg_neg q, truncate_neg, truncate_of_nonneg (neg_nonneg.mpr h), Int.ceil_neg]

theorem tdiv_eq_truncate (n : ℤ) (d : ℕ) : n.tdiv d = truncate (n / d) := by
  rcases le_total 0 n with h | h
  · have hq : (0 : ℚ) ≤ n / d := div_nonneg (Int.cast_nonneg h) (Nat.cast_nonneg d)
    rw [truncate_of_nonneg hq, Rat.floor_intCast_div_natCast, Int.tdiv_eq_ediv_of_nonneg h]
  · have hq : (n / d : ℚ) ≤ 0 := div_nonpos_of_nonpos_of_nonneg (Int.cast_nonpos.mpr h)
      (Nat.cast_nonneg d)
    rw [truncate_of_nonpos hq, Rat.ceil_intCast_div_natCast, ← Int.tdiv_eq_ediv_of_nonneg (by omega),
      Int.neg_tdiv, neg_neg]

theorem truncate_intCast (n : ℤ) : truncate n = n := by
  rw [truncate, Rat.num_intCast, Rat.den_intCast, Nat.cast_one, Int.tdiv_one]

/-- A positive `std::ratio`, in lowest terms. -/
structure Ratio where
  val : ℚ
  pos : 0 < val
  num_fits : int64.Fits val.num
  den_fits : int64.Fits val.den

namespace Ratio

def ofRat (q : ℚ) (h : 0 < q) : Option Ratio :=
  if hfits : int64.Fits q.num ∧ int64.Fits q.den then some ⟨q, h, hfits.1, hfits.2⟩ else none

theorem ofRat_eq_some {q : ℚ} {h : 0 < q} {P : Ratio} (hP : ofRat q h = some P) : P.val = q := by
  unfold ofRat at hP
  split at hP
  · cases hP
    rfl
  · cases hP

theorem ofRat_of_eq {q : ℚ} {h : 0 < q} {P : Ratio} (hP : P.val = q) : ofRat q h = some P := by
  subst hP
  exact dif_pos ⟨P.num_fits, P.den_fits⟩

variable (P Q : Ratio)

/-- `std::ratio_divide` -/
def divide : Option Ratio := ofRat (P.val / Q.val) (div_pos P.pos Q.pos)

theorem num_pos : 0 < P.val.num.natAbs := Int.natAbs_pos.mpr (Rat.num_pos.mpr P.pos).ne'

theorem val_eq : P.val = P.val.num.natAbs / P.val.den := by
  have hnum : (P.val.num.natAbs : ℤ) = P.val.num := Int.natAbs_of_nonneg (Rat.num_pos.mpr P.pos).le
  rw [← Int.cast_natCast, hnum, Rat.num_div_den]

def common : Option Ratio :=
  ofRat (Nat.gcd P.val.num.natAbs Q.val.num.natAbs / Nat.lcm P.val.den Q.val.den)
    (div_pos (Nat.cast_pos.mpr (Nat.gcd_pos_of_pos_left _ P.num_pos))
      (Nat.cast_pos.mpr (Nat.lcm_pos P.val.den_pos Q.val.den_pos)))

def Multiple : Prop := ∃ k : ℕ, P.val = k * Q.val

theorem exists_div_eq {a b g l : ℕ} (hg : g ∣ a) (hb : b ∣ l) (ha : 0 < a) (hl : 0 < l) :
    ∃ k : ℕ, (a / b : ℚ) = k * (g / l) := by
  obtain ⟨n, rfl⟩ := hg
  obtain ⟨m, rfl⟩ := hb
  have hg : (g : ℚ) ≠ 0 := Nat.cast_ne_zero.mpr (Nat.pos_of_mul_pos_right ha).ne'
  have hb : (b : ℚ) ≠ 0 := Nat.cast_ne_zero.mpr (Nat.pos_of_mul_pos_right hl).ne'
  have hm : (m : ℚ) ≠ 0 := Nat.cast_ne_zero.mpr (Nat.pos_of_mul_pos_left hl).ne'
  refine ⟨n * m, ?_⟩
  push_cast
  field_simp

variable {P Q}

theorem common_multiple {C : Ratio} (h : P.common Q = some C) : P.Multiple C ∧ Q.Multiple C := by
  have hC := ofRat_eq_some h
  have hlcm := Nat.lcm_pos P.val.den_pos Q.val.den_pos
  constructor
  · obtain ⟨k, hk⟩ := exists_div_eq (Nat.gcd_dvd_left _ Q.val.num.natAbs)
      (Nat.dvd_lcm_left _ Q.val.den) P.num_pos hlcm
    refine ⟨k, ?_⟩
    rw [hC, ← hk]
    exact P.val_eq
  · obtain ⟨k, hk⟩ := exists_div_eq (Nat.gcd_dvd_right P.val.num.natAbs _)
      (Nat.dvd_lcm_right P.val.den _) Q.num_pos hlcm
    refine ⟨k, ?_⟩
    rw [hC, ← hk]
    exact Q.val_eq

end Ratio

/-- `std::common_type` of two integer types, one of which is at least as wide as `int`. -/
def commonType (T U : IntegerType) : IntegerType :=
  if T.width < U.width then U
  else if U.width < T.width then T
  else if T.signed then U else T

structure Duration (Rep : IntegerType) (Period : Ratio) where
  count : Rep.Value

variable {Rep Rep' To : IntegerType} {P P' Q : Ratio}

def Duration.seconds (d : Duration Rep P) : ℚ := d.count.val * P.val

/-- There is no result where a number does not fit its type. -/
def durationCast (To : IntegerType) (Q : Ratio) (d : Duration Rep P) : Option (Duration To Q) := do
  let CR := commonType (commonType To Rep) int64
  let cf ← P.divide Q
  let count ← CR.checked d.count.val
  let num ← CR.checked cf.val.num
  let den ← CR.checked cf.val.den
  let product ← CR.checked (count.val * num.val)
  let quotient ← CR.checked (product.val.tdiv den.val)
  let result ← To.checked quotient.val
  return ⟨result⟩

def Duration.minus (d : Duration Rep P) (e : Duration Rep' P') :
    Option (Σ Q, Duration (commonType Rep Rep') Q) := do
  let CD := commonType Rep Rep'
  let Q ← P.common P'
  let minuend ← durationCast CD Q d
  let subtrahend ← durationCast CD Q e
  let count ← CD.checked (minuend.count.val - subtrahend.count.val)
  return ⟨Q, ⟨count⟩⟩

theorem count_durationCast {d : Duration Rep P} {e : Duration To Q}
    (h : durationCast To Q d = some e) : e.count.val = truncate (d.seconds / Q.val) := by
  unfold durationCast at h
  dsimp only at h
  obtain ⟨cf, hcf, h⟩ := Option.bind_eq_some_iff.mp h
  obtain ⟨count, hcount, h⟩ := Option.bind_eq_some_iff.mp h
  obtain ⟨num, hnum, h⟩ := Option.bind_eq_some_iff.mp h
  obtain ⟨den, hden, h⟩ := Option.bind_eq_some_iff.mp h
  obtain ⟨product, hproduct, h⟩ := Option.bind_eq_some_iff.mp h
  obtain ⟨quotient, hquotient, h⟩ := Option.bind_eq_some_iff.mp h
  obtain ⟨result, hresult, h⟩ := Option.bind_eq_some_iff.mp h
  cases h
  show result.val = _
  rw [checked_eq_some.mp hresult, checked_eq_some.mp hquotient, checked_eq_some.mp hproduct,
    checked_eq_some.mp hden, checked_eq_some.mp hnum, checked_eq_some.mp hcount, tdiv_eq_truncate]
  congr 1
  calc ((d.count.val * cf.val.num : ℤ) : ℚ) / cf.val.den
      = d.count.val * (cf.val.num / cf.val.den) := by rw [Int.cast_mul, mul_div_assoc]
    _ = d.count.val * (P.val / Q.val) := by rw [Rat.num_div_den, Ratio.ofRat_eq_some hcf]
    _ = d.seconds / Q.val := by rw [Duration.seconds, mul_div_assoc]

theorem durationCast_of_fits {d : Duration Rep P} {cf : Ratio} {T : IntegerType} {num : ℤ}
    {den : ℕ} (hCR : commonType (commonType To Rep) int64 = T) (hcf : P.divide Q = some cf)
    (hnum : cf.val.num = num) (hden : cf.val.den = den) (hcount : T.Fits d.count.val)
    (hnum' : T.Fits num) (hden' : T.Fits den) (hproduct : T.Fits (d.count.val * num))
    (hresult : To.Fits ((d.count.val * num).tdiv den)) :
    durationCast To Q d = some ⟨⟨_, hresult⟩⟩ := by
  subst hCR hnum hden
  unfold durationCast
  dsimp only
  simp only [hcf, Option.bind_eq_bind, Option.bind_some, checked_of_fits hcount,
    checked_of_fits hnum', checked_of_fits hden', checked_of_fits hproduct,
    checked_of_fits (hproduct.tdiv cf.val.den), checked_of_fits hresult]
  rfl

theorem seconds_durationCast {d : Duration Rep P} {e : Duration To Q} (hPQ : P.Multiple Q)
    (h : durationCast To Q d = some e) : e.seconds = d.seconds := by
  obtain ⟨k, hk⟩ := hPQ
  have hQ : Q.val ≠ 0 := Q.pos.ne'
  have hquotient : d.seconds / Q.val = ((d.count.val * k : ℤ) : ℚ) := by
    rw [Duration.seconds, hk]
    push_cast
    field_simp
  rw [Duration.seconds, count_durationCast h, hquotient, truncate_intCast, ← hquotient,
    div_mul_cancel₀ _ hQ]

theorem minus_of_fits {d : Duration Rep P} {e : Duration Rep' P'} {T : IntegerType}
    {d' e' : Duration T Q} (hT : commonType Rep Rep' = T) (hQ : P.common P' = some Q)
    (hd : durationCast T Q d = some d') (he : durationCast T Q e = some e')
    (hfits : T.Fits (d'.count.val - e'.count.val)) :
    ∃ r, d.minus e = some r ∧ r.1 = Q ∧ r.2.count.val = d'.count.val - e'.count.val := by
  subst hT
  unfold Duration.minus
  dsimp only
  simp only [hQ, hd, he, Option.bind_eq_bind, Option.bind_some, checked_of_fits hfits]
  exact ⟨_, rfl, rfl, rfl⟩

theorem seconds_minus {d : Duration Rep P} {e : Duration Rep' P'}
    {r : Σ Q, Duration (commonType Rep Rep') Q} (h : d.minus e = some r) :
    r.2.seconds = d.seconds - e.seconds := by
  unfold Duration.minus at h
  dsimp only at h
  obtain ⟨Q, hQ, h⟩ := Option.bind_eq_some_iff.mp h
  obtain ⟨minuend, hminuend, h⟩ := Option.bind_eq_some_iff.mp h
  obtain ⟨subtrahend, hsubtrahend, h⟩ := Option.bind_eq_some_iff.mp h
  obtain ⟨count, hcount, h⟩ := Option.bind_eq_some_iff.mp h
  cases h
  obtain ⟨hP, hP'⟩ := Ratio.common_multiple hQ
  rw [← seconds_durationCast hP hminuend, ← seconds_durationCast hP' hsubtrahend]
  show (count.val : ℚ) * Q.val = _
  rw [checked_eq_some.mp hcount, Duration.seconds, Duration.seconds, Int.cast_sub, sub_mul]

end BadIo.Chrono
