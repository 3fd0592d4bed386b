import Mathlib.Algebra.Order.Field.Power
import Mathlib.Data.Rat.Cast.Order
import Mathlib.Tactic.FieldSimp
import Mathlib.Tactic.Ring
import StampedPrograms.Decimal.Basic

/-!
The number that a decimal denotes, and its digits: how many they are, and which of them is a zero.
-/

namespace StampedPrograms.Decimal

/-- The digits of a positive number have no zero in front. -/
theorem head?_toDigits {n : Nat} (h : n ≠ 0) : (Nat.toDigits 10 n).head? ≠ some '0' := by
  induction n using Nat.strongRecOn with
  | ind n ih =>
      by_cases hsmall : n < 10
      · rw [Nat.toDigits_of_lt_base hsmall]
        have hdigits : ∀ m < 10, m ≠ 0 → [Nat.digitChar m].head? ≠ some '0' := by decide
        exact hdigits n hsmall h
      · have hquotient := ih (n / 10) (by omega) (by omega)
        obtain ⟨c, cs, hdigits⟩ := List.exists_cons_of_ne_nil (Nat.toDigits_ne_nil (n := n / 10) (b := 10))
        rw [Nat.toDigits_of_base_le (by decide) (by omega), hdigits]
        rwa [hdigits] at hquotient

/-- The last digit is the remainder by ten. -/
theorem getLast?_toDigits {n : Nat} (h : n % 10 ≠ 0) : (Nat.toDigits 10 n).getLast? ≠ some '0' := by
  have hdigit : (Nat.toDigits 10 n).getLast? = some (Nat.digitChar (n % 10)) := by
    rw [Nat.toDigits_eq_if (by decide)]
    split
    · next hsmall => rw [Nat.mod_eq_of_lt hsmall, List.getLast?_singleton]
    · rw [List.getLast?_append, List.getLast?_singleton, Option.some_or]
  have hdigits : ∀ m < 10, m ≠ 0 → some (Nat.digitChar m) ≠ some '0' := by decide
  rw [hdigit]
  exact hdigits _ (Nat.mod_lt _ (by decide)) h

theorem pow_length_toDigits {n : Nat} (h : 0 < n) :
    10 ^ ((Nat.toDigits 10 n).length - 1) ≤ n ∧ n < 10 ^ (Nat.toDigits 10 n).length := by
  have hpos : 0 < (Nat.toDigits 10 n).length := Nat.length_toDigits_pos
  refine ⟨?_, (Nat.length_toDigits_le_iff (by decide) hpos).mp le_rfl⟩
  by_cases hone : (Nat.toDigits 10 n).length - 1 = 0
  · rw [hone]
    exact h
  · by_contra hlt
    have := (Nat.length_toDigits_le_iff (by decide) (Nat.pos_of_ne_zero hone)).mpr (not_le.mp hlt)
    omega

theorem pow_mul_zpow {n : Nat} {e sum : Int} (h : n + e = sum) : (10 : ℚ) ^ n * 10 ^ e = 10 ^ sum := by
  rw [← h, zpow_add₀ (by norm_num), zpow_natCast]

/-- The number that a decimal denotes. -/
def value (d : Decimal) : ℚ :=
  d.coefficient * 10 ^ d.exponent

theorem value_nonneg (d : Decimal) : 0 ≤ d.value :=
  mul_nonneg (Nat.cast_nonneg _) (by positivity)

theorem length_digits_le_iff (d : Decimal) {count : Nat} (h : 0 < count) :
    d.digits.length ≤ count ↔ d.coefficient < 10 ^ count :=
  Nat.length_toDigits_le_iff (by decide) h

theorem length_digits_eq_one {coefficient : Nat} (h : coefficient < 10) (exponent : Int) :
    (⟨coefficient, exponent⟩ : Decimal).digits.length = 1 := by
  rw [digits, Nat.toDigits_of_lt_base h, List.length_singleton]

theorem value_bounds {d : Decimal} (h : 0 < d.coefficient) :
    10 ^ (d.point - 1) ≤ d.value ∧ d.value < 10 ^ d.point := by
  obtain ⟨hlow, hhigh⟩ := pow_length_toDigits h
  have hlow' : (10 : ℚ) ^ (d.digits.length - 1) ≤ d.coefficient := by exact_mod_cast hlow
  have hhigh' : (d.coefficient : ℚ) < 10 ^ d.digits.length := by exact_mod_cast hhigh
  have hlength : 0 < d.digits.length := Nat.length_toDigits_pos
  have hgrid : (0 : ℚ) < 10 ^ d.exponent := by positivity
  rw [value, point]
  constructor
  · have hsum : ((d.digits.length - 1 : Nat) : Int) + d.exponent = d.digits.length + d.exponent - 1 := by omega
    rw [← pow_mul_zpow hsum]
    exact mul_le_mul_of_nonneg_right hlow' hgrid.le
  · rw [← pow_mul_zpow rfl]
    exact mul_lt_mul_of_pos_right hhigh' hgrid

/-- Without zeros at the end a number has one coefficient. -/
theorem eq_of_value_eq {d d' : Decimal} (h : d.coefficient % 10 ≠ 0) (h' : d'.coefficient % 10 ≠ 0)
    (hvalue : d.value = d'.value) : d = d' := by
  wlog hle : d.exponent ≤ d'.exponent generalizing d d'
  · exact (this h' h hvalue.symm (by omega)).symm
  obtain ⟨zeros, hzeros⟩ := Int.eq_ofNat_of_zero_le (sub_nonneg.mpr hle)
  have hgrid : (10 : ℚ) ^ d.exponent ≠ 0 := by positivity
  have hcoefficient : d.coefficient = d'.coefficient * 10 ^ zeros := by
    rw [value, value, ← pow_mul_zpow (show zeros + d.exponent = d'.exponent by omega), ← mul_assoc] at hvalue
    exact_mod_cast mul_right_cancel₀ hgrid hvalue
  obtain rfl : zeros = 0 := by
    by_contra hne
    obtain ⟨fewer, rfl⟩ := Nat.exists_eq_succ_of_ne_zero hne
    rw [hcoefficient, Nat.pow_succ, ← Nat.mul_assoc] at h
    exact h (Nat.mul_mod_left _ _)
  obtain ⟨coefficient, exponent⟩ := d
  obtain ⟨coefficient', exponent'⟩ := d'
  simp only [Nat.pow_zero, Nat.mul_one] at hcoefficient hzeros
  rw [mk.injEq]
  exact ⟨hcoefficient, by omega⟩

/-- Stripping changes how the number is written only, and leaves no zero at the end. -/
theorem stripped_spec {coefficient : Nat} (h : 0 < coefficient) (exponent : Int) :
    (stripped coefficient exponent).value = coefficient * 10 ^ exponent ∧
      (stripped coefficient exponent).coefficient % 10 ≠ 0 ∧
      (stripped coefficient exponent).coefficient ≤ coefficient ∧
      exponent ≤ (stripped coefficient exponent).exponent := by
  induction coefficient, exponent using stripped.induct with
  | case1 coefficient exponent hzero ih =>
      obtain ⟨hvalue, hlast, hle, hexponent⟩ := ih (by omega)
      rw [stripped, if_pos hzero]
      refine ⟨?_, hlast, by omega, by omega⟩
      have hten : (coefficient : ℚ) = (coefficient / 10 : Nat) * 10 := by
        exact_mod_cast (Nat.div_mul_cancel (Nat.dvd_of_mod_eq_zero hzero.2)).symm
      rw [hvalue, hten, zpow_add_one₀ (by norm_num)]
      ring
  | case2 coefficient exponent hnot =>
      rw [stripped, if_neg hnot]
      exact ⟨rfl, fun hlast => hnot ⟨h, hlast⟩, le_rfl, le_rfl⟩

end StampedPrograms.Decimal
