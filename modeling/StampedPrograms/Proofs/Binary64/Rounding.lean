import Mathlib.Algebra.Group.Nat.Defs
import StampedPrograms.Binary64.Nearest
import StampedPrograms.Decimal.Basic

/-!
Rounding sees only the value of a quotient, and a double rounds to itself. So every decimal with the
value of a double reads back to that double, however it is written.
-/

namespace StampedPrograms.Binary64

theorem divideToEven_mul {k : Nat} (hk : 0 < k) (num den : Nat) :
    divideToEven (k * num) (k * den) = divideToEven num den := by
  have htwice : 2 * (k * (num % den)) = k * (2 * (num % den)) := Nat.mul_left_comm ..
  simp only [divideToEven, Nat.mul_div_mul_left _ _ hk, Nat.mul_mod_mul_left, htwice,
    Nat.mul_lt_mul_left hk]

theorem nearest_mul {k : Nat} (hk : 0 < k) (num den : Nat) :
    nearest (k * num) (k * den) = nearest num den := by
  have hshift (places : Nat) : (k * den) <<< places = k * den <<< places := by
    rw [Nat.shiftLeft_eq, Nat.shiftLeft_eq, Nat.mul_assoc]
  simp only [nearest, Nat.mul_div_mul_left _ _ hk, hshift, divideToEven_mul hk]

theorem divideToEven_shiftLeft (n places : Nat) :
    divideToEven (n <<< places) (1 <<< places) = n := by
  have hpos : 0 < 2 ^ places := Nat.two_pow_pos places
  simp [divideToEven, Nat.shiftLeft_eq, Nat.mul_div_cancel _ hpos, hpos]

theorem leadingBit_eq : leadingBit = 2 ^ 52 := rfl

/-- Shifting moves the leading digit. -/
theorem log2_shiftLeft {n : Nat} (hn : n ≠ 0) (places : Nat) :
    (n <<< places).log2 = n.log2 + places := by
  induction places with
  | zero => simp
  | succ places ih =>
      have hshifted : n <<< places ≠ 0 := mt Nat.shiftLeft_eq_zero_iff.mp hn
      rw [Nat.shiftLeft_succ, Nat.log2_two_mul hshifted, ih, Nat.add_assoc]

theorem log2_leadingBit_add {fraction : Nat} (h : fraction < leadingBit) :
    (leadingBit + fraction).log2 = 52 := by
  have hpos : leadingBit + fraction ≠ 0 := by simp [leadingBit]
  rw [Nat.log2_eq_iff hpos]
  simp only [leadingBit] at h ⊢
  omega

/-- A finite magnitude is the nearest one to itself. -/
theorem nearest_units {magnitude : Nat} (h : magnitude < infinite) :
    nearest (units magnitude) 1 = magnitude := by
  have hsplit := Nat.div_add_mod magnitude leadingBit
  have hfraction : magnitude % leadingBit < leadingBit := Nat.mod_lt _ (by decide)
  by_cases hexponent : magnitude / leadingBit = 0
  · have hsmall : magnitude % leadingBit = magnitude := by
      rw [hexponent] at hsplit
      omega
    have hplaces : magnitude.log2 - 52 = 0 := by
      by_cases hzero : magnitude = 0
      · simp [hzero]
      · have hlt : magnitude.log2 < 52 := (Nat.log2_lt hzero).mpr (by rw [← leadingBit_eq]; omega)
        omega
    have hself := divideToEven_shiftLeft magnitude 0
    simp only [Nat.shiftLeft_zero] at hself
    simp only [nearest, units, hexponent, if_true, hsmall, Nat.div_one, hplaces, Nat.shiftLeft_zero,
      Nat.zero_mul, hself]
    omega
  · have hplaces : ((leadingBit + magnitude % leadingBit) <<<
        (magnitude / leadingBit - 1)).log2 - 52 = magnitude / leadingBit - 1 := by
      rw [log2_shiftLeft (by simp [leadingBit]), log2_leadingBit_add hfraction]
      omega
    simp only [nearest, units, hexponent, if_false, Nat.div_one, hplaces, divideToEven_shiftLeft]
    have hmul : magnitude / leadingBit * leadingBit =
        (magnitude / leadingBit - 1) * leadingBit + leadingBit := by
      rw [← Nat.succ_mul, Nat.succ_eq_add_one, Nat.sub_add_cancel (Nat.one_le_iff_ne_zero.mpr hexponent)]
    rw [Nat.mul_comm] at hsplit
    omega

/-- No number of units but none rounds to zero. -/
theorem nearest_one_eq_zero {num : Nat} (h : nearest num 1 = 0) : num = 0 := by
  have hplaces : num.log2 - 52 = 0 := by
    simp only [nearest, Nat.div_one, leadingBit, infinite] at h
    omega
  have hself := divideToEven_shiftLeft num 0
  simp only [Nat.shiftLeft_zero] at hself
  simp only [nearest, Nat.div_one, hplaces, Nat.shiftLeft_zero, Nat.zero_mul, hself, infinite] at h
  omega

theorem unitsPerOne_eq : unitsPerOne = 2 ^ 1074 := by
  unfold unitsPerOne
  -- with the literal in place Lean would try to compute the power
  generalize 1074 = places
  exact Nat.one_shiftLeft places

/-- A zero moved from the coefficient into the exponent changes nothing. -/
theorem ofScaled_mul_ten (negative : Bool) (coefficient : Nat) (exponent : Int) :
    ofScaled negative (10 * coefficient) exponent = ofScaled negative coefficient (exponent + 1) := by
  simp only [ofScaled, ofQuotient, mk.injEq, true_and]
  generalize unitsPerOne = u
  by_cases h : 0 ≤ exponent
  · have hnum : (exponent + 1).toNat = exponent.toNat + 1 := by omega
    have hden : (-exponent).toNat = 0 := by omega
    have hden' : (-(exponent + 1)).toNat = 0 := by omega
    rw [hnum, hden, hden']
    simp only [Nat.pow_eq, Nat.pow_succ]
    congr 2
    ac_rfl
  · have hnum : exponent.toNat = 0 := by omega
    have hnum' : (exponent + 1).toNat = 0 := by omega
    have hden : (-exponent).toNat = (-(exponent + 1)).toNat + 1 := by omega
    rw [hnum, hnum', hden, Nat.pow_eq, Nat.pow_eq, Nat.pow_eq, Nat.pow_succ, Nat.mul_comm (10 ^ _) 10,
      Nat.mul_assoc, Nat.mul_assoc, nearest_mul (by decide), Nat.mul_assoc]

/-- Any number of zeros may move. -/
theorem ofScaled_mul_pow (negative : Bool) (coefficient places : Nat) :
    ofScaled negative (coefficient * 10 ^ places) 0 = ofScaled negative coefficient places := by
  have hden : (-(places : Int)).toNat = 0 := by omega
  simp [ofScaled, ofQuotient, hden]

theorem ofScaled_stripped (negative : Bool) (coefficient : Nat) (exponent : Int) :
    ofScaled negative (Decimal.stripped coefficient exponent).coefficient
      (Decimal.stripped coefficient exponent).exponent = ofScaled negative coefficient exponent := by
  induction coefficient, exponent using Decimal.stripped.induct with
  | case1 coefficient exponent h ih =>
      rw [Decimal.stripped, if_pos h, ih, ← ofScaled_mul_ten, Nat.mul_div_cancel' (by omega)]
  | case2 coefficient exponent h => rw [Decimal.stripped, if_neg h]

end StampedPrograms.Binary64
