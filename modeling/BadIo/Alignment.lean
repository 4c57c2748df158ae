import Mathlib.Data.Nat.Basic
import Mathlib.Algebra.Order.Group.Nat
import Mathlib.Algebra.GroupWithZero.Divisibility
import Mathlib.Tactic.Common

namespace BadIo

/-- The least multiple of `a` from `x` on. -/
def alignUp (x a : ℕ) : ℕ := (x + a - 1) / a * a

/-- `std::align` for a buffer of `space` bytes at `ptr`. -/
def stdAlign (a size ptr space : ℕ) : Option ℕ :=
  if size + (alignUp ptr a - ptr) ≤ space then some (alignUp ptr a) else none

theorem dvd_alignUp (x a : ℕ) : a ∣ alignUp x a := Dvd.intro_left _ rfl

theorem le_alignUp (x : ℕ) {a : ℕ} (ha : 0 < a) : x ≤ alignUp x a := by
  have hdiv := Nat.div_add_mod (x + a - 1) a
  have hmod := Nat.mod_lt (x + a - 1) ha
  rw [Nat.mul_comm] at hdiv
  unfold alignUp
  omega

theorem alignUp_add {a b : ℕ} (ha : 0 < a) (hb : a ∣ b) (x : ℕ) :
    alignUp (b + x) a = b + alignUp x a := by
  obtain ⟨c, rfl⟩ := hb
  have hsum : a * c + x + a - 1 = a * c + (x + a - 1) := by omega
  rw [alignUp, alignUp, hsum, Nat.mul_add_div ha, Nat.add_mul, Nat.mul_comm c a]

theorem stdAlign_spec {a size ptr space p : ℕ} (ha : 0 < a)
    (h : stdAlign a size ptr space = some p) : ptr ≤ p ∧ p + size ≤ ptr + space ∧ a ∣ p := by
  unfold stdAlign at h
  split at h
  · obtain rfl := Option.some.inj h
    have hle := le_alignUp ptr ha
    exact ⟨hle, by omega, dvd_alignUp ptr a⟩
  · cases h

section Buffer

variable {e j size x space : ℕ}

theorem stdAlign_eq_none (hej : ¬ e ≤ j) (hsize : 0 < size) (hx : 0 < x)
    (hspace : x + space ≤ 2 ^ j) {base : ℕ} (hbase : 2 ^ j ∣ base) :
    stdAlign (2 ^ e) size (base + x) space = none := by
  have hle := le_alignUp (base + x) (Nat.two_pow_pos e)
  have hdvd : 2 ^ j ∣ alignUp (base + x) (2 ^ e) :=
    (Nat.pow_dvd_pow 2 (by omega)).trans (dvd_alignUp _ _)
  obtain ⟨b, rfl⟩ := hbase
  obtain ⟨c, hc⟩ := hdvd
  -- the rounded address is a multiple of `2 ^ j` above the object's own
  have hbc : b < c := by
    apply Nat.lt_of_mul_lt_mul_left (a := 2 ^ j)
    omega
  have hnext : 2 ^ j * b + 2 ^ j ≤ 2 ^ j * c := by
    rw [← Nat.mul_succ]
    exact Nat.mul_le_mul_left _ hbc
  rw [stdAlign, if_neg]
  omega

theorem stdAlign_add (hsize : 0 < size) (hx : 0 < x) (hspace : x + space ≤ 2 ^ j) {base : ℕ}
    (hbase : 2 ^ j ∣ base) :
    stdAlign (2 ^ e) size (base + x) space = (stdAlign (2 ^ e) size x space).map (base + ·) := by
  by_cases hej : e ≤ j
  · have hshift := alignUp_add (Nat.two_pow_pos e) ((Nat.pow_dvd_pow 2 hej).trans hbase) x
    have hdiff : base + alignUp x (2 ^ e) - (base + x) = alignUp x (2 ^ e) - x :=
      Nat.add_sub_add_left _ _ _
    rw [stdAlign, stdAlign, hshift, hdiff]
    split
    · rfl
    · rfl
  · have hzero := stdAlign_eq_none hej hsize hx hspace (Nat.dvd_zero (2 ^ j))
    rw [Nat.zero_add] at hzero
    rw [stdAlign_eq_none hej hsize hx hspace hbase, hzero, Option.map_none]

theorem dvd_of_stdAlign (hsize : 0 < size) (hx : 0 < x) (hspace : x + space ≤ 2 ^ j) {p : ℕ}
    (h : stdAlign (2 ^ e) size x space = some p) : 2 ^ e ∣ 2 ^ j := by
  by_cases hej : e ≤ j
  · exact Nat.pow_dvd_pow 2 hej
  · have hnone := stdAlign_eq_none hej hsize hx hspace (Nat.dvd_zero (2 ^ j))
    rw [Nat.zero_add, h] at hnone
    cases hnone

end Buffer

end BadIo
