import Mathlib.Algebra.Order.Floor.Semifield
import Mathlib.Data.Nat.Cast.Order.Field
import Mathlib.Data.Nat.Log
import Mathlib.Data.Rat.Floor
import Mathlib.Tactic.Linarith
import Mathlib.Tactic.NormNum
import Mathlib.Tactic.Ring
import StampedPrograms.Proofs.Binary64.Integers

/-!
Rounding as a function of rational numbers. It keeps the order, so what lies between a double and a
number that rounds to it rounds to it too, and so does every number whose distance from a double is
at most 2^-54 of that double. No double is nearer to a number than the one it is rounded to.
-/

namespace StampedPrograms.Binary64

/-- The quotient is off by a half at most, and by a half only if it is even. -/
theorem divideToEven_spec (num : Nat) {den : Nat} (hden : 0 < den) :
    |(num : ℚ) / den - divideToEven num den| ≤ 1 / 2 ∧
      (|(num : ℚ) / den - divideToEven num den| = 1 / 2 → divideToEven num den % 2 = 0) := by
  have hpos : (0 : ℚ) < den := by exact_mod_cast hden
  have hsplit : (num : ℚ) / den = (num / den : Nat) + (num % den : Nat) / den := by
    rw [div_eq_iff hpos.ne', add_mul, div_mul_cancel₀ _ hpos.ne', mul_comm]
    exact_mod_cast (Nat.div_add_mod num den).symm
  have hrest : (num % den : Nat) / (den : ℚ) < 1 := by
    rw [div_lt_one hpos]
    exact_mod_cast Nat.mod_lt num hden
  have hrest_nonneg : 0 ≤ (num % den : Nat) / (den : ℚ) := by positivity
  have hbelow : 2 * (num % den) < den ↔ (num % den : Nat) / (den : ℚ) < 1 / 2 := by
    rw [div_lt_div_iff₀ hpos two_pos, one_mul, mul_comm]
    exact_mod_cast Iff.rfl
  have habove : den < 2 * (num % den) ↔ 1 / 2 < (num % den : Nat) / (den : ℚ) := by
    rw [div_lt_div_iff₀ two_pos hpos, one_mul, mul_comm _ (2 : ℚ)]
    exact_mod_cast Iff.rfl
  generalize ((num % den : Nat) : ℚ) / den = rest at hsplit hrest hrest_nonneg hbelow habove
  rw [hsplit]
  unfold divideToEven
  dsimp only
  split
  · next h =>
      rw [add_sub_cancel_left, abs_of_nonneg hrest_nonneg]
      have := hbelow.mp h
      exact ⟨this.le, fun heq => absurd heq this.ne⟩
  split
  · next h =>
      have hnear := habove.mp h
      push_cast
      rw [add_sub_add_left_eq_sub, abs_of_nonpos (by linarith)]
      exact ⟨by linarith, fun heq => by linarith⟩
  · next hnot hnot' =>
      have hhalf : rest = 1 / 2 := le_antisymm (not_lt.mp (mt habove.mpr hnot')) (not_lt.mp (mt hbelow.mpr hnot))
      refine ⟨?_, fun _ => by omega⟩
      rcases Nat.mod_two_eq_zero_or_one (num / den) with heven | hodd
      · rw [heven, hhalf, Nat.add_zero, add_sub_cancel_left]
        norm_num
      · rw [hodd, hhalf]
        push_cast
        rw [add_sub_add_left_eq_sub]
        norm_num [abs_le]

theorem divideToEven_mono {num den num' den' : Nat} (hden : 0 < den) (hden' : 0 < den')
    (h : (num : ℚ) / den ≤ num' / den') : divideToEven num den ≤ divideToEven num' den' := by
  obtain ⟨hnear, htie⟩ := divideToEven_spec num hden
  obtain ⟨hnear', htie'⟩ := divideToEven_spec num' hden'
  by_contra hlt
  have hsucc : (divideToEven num' den' : ℚ) + 1 ≤ divideToEven num den := by exact_mod_cast Nat.lt_of_not_le hlt
  obtain ⟨hlow, hhigh⟩ := abs_le.mp hnear
  obtain ⟨hlow', hhigh'⟩ := abs_le.mp hnear'
  -- both are off by a half, to different sides, so two numbers in succession would be even
  have hnext : divideToEven num den = divideToEven num' den' + 1 := by
    have : (divideToEven num den : ℚ) = divideToEven num' den' + 1 := by linarith
    exact_mod_cast this
  have heven := htie (by rw [show (num : ℚ) / den - divideToEven num den = -(1 / 2) by linarith]; norm_num)
  have heven' := htie' (by rw [show (num' : ℚ) / den' - divideToEven num' den' = 1 / 2 by linarith]; norm_num)
  omega

theorem divideToEven_one (n : Nat) : divideToEven n 1 = n := by
  have h := divideToEven_shiftLeft n 0
  rwa [Nat.shiftLeft_zero, Nat.shiftLeft_zero] at h

theorem shiftLeft_pos {den : Nat} (hden : 0 < den) (places : Nat) : 0 < den <<< places := by
  rw [Nat.shiftLeft_eq]
  positivity

/-- The number of places that are cut off shows in the quotient. -/
theorem places_eq {n places : Nat} (hlow : places = 0 ∨ 2 ^ (52 + places) ≤ n) (hhigh : n < 2 ^ (53 + places)) :
    n.log2 - 52 = places := by
  by_cases hn : n = 0
  · subst hn
    have : 0 < 2 ^ (52 + places) := Nat.two_pow_pos _
    simp only [Nat.log2_zero]
    omega
  have hlt : n.log2 < 53 + places := (Nat.log2_lt hn).mpr hhigh
  rcases hlow with rfl | hlow
  · omega
  · have hle : 52 + places ≤ n.log2 := (Nat.le_log2 hn).mpr hlow
    omega

theorem pow_places_le {n : Nat} (h : n.log2 - 52 ≠ 0) : 2 ^ (52 + (n.log2 - 52)) ≤ n := by
  have hne : n ≠ 0 := by
    rintro rfl
    exact h rfl
  exact le_trans (Nat.pow_le_pow_right two_pos (by omega)) (Nat.log2_self_le hne)

/-- What is left after the places are cut off has 53 digits, or fewer if none were. -/
theorem divideToEven_places (num : Nat) {den : Nat} (hden : 0 < den) :
    divideToEven num (den <<< ((num / den).log2 - 52)) ≤ 2 * leadingBit ∧
      ((num / den).log2 - 52 = 0 ∨ leadingBit ≤ divideToEven num (den <<< ((num / den).log2 - 52))) := by
  generalize hplaces : (num / den).log2 - 52 = places
  have hpow : (0 : ℚ) < 2 ^ places := by positivity
  have hpos : (0 : ℚ) < den := by exact_mod_cast hden
  have hcast : ((den <<< places : Nat) : ℚ) = den * 2 ^ places := by
    rw [Nat.shiftLeft_eq]
    push_cast
    rfl
  constructor
  · rw [← divideToEven_one (2 * leadingBit)]
    refine divideToEven_mono (shiftLeft_pos hden _) one_pos ?_
    have hlt : num / den < 2 ^ (53 + places) :=
      lt_of_lt_of_le Nat.lt_log2_self (Nat.pow_le_pow_right two_pos (by omega))
    rw [Nat.div_lt_iff_lt_mul hden] at hlt
    rw [hcast, div_le_iff₀ (by positivity), leadingBit_eq]
    have hle : (num : ℚ) ≤ 2 ^ (53 + places) * den := by exact_mod_cast hlt.le
    calc (num : ℚ) ≤ 2 ^ (53 + places) * den := hle
      _ = ((2 * 2 ^ 52 : Nat) : ℚ) / (1 : Nat) * (den * 2 ^ places) := by push_cast; ring
  · by_cases hzero : places = 0
    · exact .inl hzero
    right
    conv_lhs => rw [← divideToEven_one leadingBit]
    refine divideToEven_mono one_pos (shiftLeft_pos hden _) ?_
    have hle : 2 ^ (52 + places) ≤ num / den := by
      rw [← hplaces] at hzero ⊢
      exact pow_places_le hzero
    rw [Nat.le_div_iff_mul_le hden] at hle
    rw [hcast, le_div_iff₀ (by positivity), leadingBit_eq]
    have hle' : (2 : ℚ) ^ (52 + places) * den ≤ num := by exact_mod_cast hle
    calc ((2 ^ 52 : Nat) : ℚ) / (1 : Nat) * (den * 2 ^ places) = 2 ^ (52 + places) * den := by push_cast; ring
      _ ≤ num := hle'

/-- Rounding keeps the order of quotients. -/
theorem nearest_mono {num den num' den' : Nat} (hden : 0 < den) (hden' : 0 < den')
    (h : (num : ℚ) / den ≤ num' / den') : nearest num den ≤ nearest num' den' := by
  have hfloor : num / den ≤ num' / den' := by
    rw [← Nat.floor_div_eq_div (K := ℚ), ← Nat.floor_div_eq_div (K := ℚ)]
    exact Nat.floor_le_floor h
  have hplaces : (num / den).log2 - 52 ≤ (num' / den').log2 - 52 := by
    rw [Nat.log2_eq_log_two, Nat.log2_eq_log_two]
    exact Nat.sub_le_sub_right (Nat.log_mono_right hfloor) _
  obtain ⟨hhigh, -⟩ := divideToEven_places num hden
  obtain ⟨-, hlow⟩ := divideToEven_places num' hden'
  simp only [nearest]
  generalize (num / den).log2 - 52 = places at hplaces hhigh ⊢
  generalize (num' / den').log2 - 52 = places' at hplaces hlow ⊢
  refine min_le_min_right _ ?_
  rcases hplaces.eq_or_lt with rfl | hlt
  · refine Nat.add_le_add_left (divideToEven_mono (shiftLeft_pos hden _) (shiftLeft_pos hden' _) ?_) _
    rw [Nat.shiftLeft_eq, Nat.shiftLeft_eq]
    push_cast
    rw [← div_div, ← div_div]
    exact div_le_div_of_nonneg_right h (by positivity)
  · have hdigits : leadingBit ≤ divideToEven num' (den' <<< places') := hlow.resolve_left (by omega)
    calc places * leadingBit + divideToEven num (den <<< places)
        ≤ places * leadingBit + 2 * leadingBit := Nat.add_le_add_left hhigh _
      _ = (places + 1) * leadingBit + leadingBit := by ring
      _ ≤ places' * leadingBit + divideToEven num' (den' <<< places') :=
          Nat.add_le_add (Nat.mul_le_mul_right _ hlt) hdigits

/-- A magnitude as a number of at most 53 digits and a number of places by which it is shifted. -/
theorem exists_places (magnitude : Nat) :
    ∃ n places, n < 2 * leadingBit ∧ (places = 0 ∨ leadingBit ≤ n) ∧
      magnitude = places * leadingBit + n ∧ units magnitude = n <<< places := by
  have hsplit := Nat.div_add_mod' magnitude leadingBit
  have hfraction : magnitude % leadingBit < leadingBit := Nat.mod_lt _ (by decide)
  unfold units
  dsimp only
  split
  · next hzero =>
      rw [hzero, Nat.zero_mul, Nat.zero_add] at hsplit
      refine ⟨magnitude % leadingBit, 0, by omega, .inl rfl, ?_, rfl⟩
      rw [Nat.zero_mul, Nat.zero_add, hsplit]
  · next hne =>
      refine ⟨_, _, by omega, .inr (Nat.le_add_right _ _), ?_, rfl⟩
      obtain ⟨exponent, hexponent⟩ := Nat.exists_eq_succ_of_ne_zero hne
      rw [hexponent, Nat.succ_mul] at hsplit
      rw [hexponent, Nat.succ_sub_one]
      omega

/-- A quotient of 53 digits, or fewer, is rounded in its last place however far it is shifted. -/
theorem nearest_shiftLeft {num den places : Nat} (hden : 0 < den)
    (hlow : places = 0 ∨ 2 ^ 52 * den ≤ num) (hhigh : num < 2 ^ 53 * den) :
    nearest (num <<< places) den = min (places * leadingBit + divideToEven num den) infinite := by
  have hpow : 0 < 2 ^ places := Nat.two_pow_pos _
  have hplaces : (num <<< places / den).log2 - 52 = places := by
    rw [Nat.shiftLeft_eq]
    refine places_eq (hlow.imp_right fun hle => ?_) ?_
    · rw [Nat.le_div_iff_mul_le hden, Nat.pow_add, Nat.mul_right_comm]
      exact Nat.mul_le_mul_right _ hle
    · rw [Nat.div_lt_iff_lt_mul hden, Nat.pow_add, Nat.mul_right_comm]
      exact Nat.mul_lt_mul_of_pos_right hhigh hpow
  simp only [nearest, hplaces]
  rw [Nat.shiftLeft_eq, Nat.shiftLeft_eq, Nat.mul_comm num, Nat.mul_comm den, divideToEven_mul hpow]

/-- A part in 2^54 is at most half a unit in the last place. -/
theorem nearest_above {magnitude : Nat} (h : magnitude < infinite) :
    nearest (units magnitude * (2 ^ 54 + 1)) (2 ^ 54) = magnitude := by
  obtain ⟨n, places, hn, hlow, hmagnitude, hunits⟩ := exists_places magnitude
  have hshift : units magnitude * (2 ^ 54 + 1) = (n * (2 ^ 54 + 1)) <<< places := by
    rw [hunits, Nat.shiftLeft_eq, Nat.shiftLeft_eq, Nat.mul_right_comm]
  simp only [leadingBit] at hn hlow
  have hround : divideToEven (n * (2 ^ 54 + 1)) (2 ^ 54) = n := by
    obtain ⟨hquotient, hrest⟩ : n * (2 ^ 54 + 1) / 2 ^ 54 = n ∧ n * (2 ^ 54 + 1) % 2 ^ 54 = n :=
      (Nat.div_mod_unique (by decide)).mpr ⟨by omega, by omega⟩
    rw [divideToEven, hquotient, hrest, if_pos (by omega)]
  rw [hshift, nearest_shiftLeft (by decide) (hlow.imp_right fun _ => by omega) (by omega), hround, ← hmagnitude]
  exact Nat.min_eq_left h.le

theorem nearest_below {magnitude : Nat} (h : magnitude < infinite) :
    nearest (units magnitude * (2 ^ 54 - 1)) (2 ^ 54) = magnitude := by
  obtain ⟨n, places, hn, hlow, hmagnitude, hunits⟩ := exists_places magnitude
  simp only [leadingBit] at hn hlow
  by_cases hleast : places ≠ 0 ∧ n = leadingBit
  · -- just below a power of two the doubles lie twice as close, and the quotient is midway between two
    obtain ⟨hplaces, rfl⟩ := hleast
    obtain ⟨fewer, rfl⟩ := Nat.exists_eq_succ_of_ne_zero hplaces
    have hshift : units magnitude * (2 ^ 54 - 1) = (2 * leadingBit * (2 ^ 54 - 1)) <<< fewer := by
      rw [hunits, Nat.shiftLeft_eq, Nat.shiftLeft_eq, Nat.pow_succ]
      ring
    have hround : divideToEven (2 * leadingBit * (2 ^ 54 - 1)) (2 ^ 54) = 2 * leadingBit := by decide
    rw [hshift, nearest_shiftLeft (by decide) (.inr (by decide)) (by decide), hround,
      Nat.two_mul, ← Nat.add_assoc, ← Nat.succ_mul, ← hmagnitude]
    exact Nat.min_eq_left h.le
  · have hshift : units magnitude * (2 ^ 54 - 1) = (n * (2 ^ 54 - 1)) <<< places := by
      rw [hunits, Nat.shiftLeft_eq, Nat.shiftLeft_eq, Nat.mul_right_comm]
    have hround : divideToEven (n * (2 ^ 54 - 1)) (2 ^ 54) = n := by
      by_cases hzero : n = 0
      · subst hzero
        decide
      · obtain ⟨hquotient, hrest⟩ :
            n * (2 ^ 54 - 1) / 2 ^ 54 = n - 1 ∧ n * (2 ^ 54 - 1) % 2 ^ 54 = 2 ^ 54 - n :=
          (Nat.div_mod_unique (by decide)).mpr ⟨by omega, by omega⟩
        rw [divideToEven, hquotient, hrest, if_neg (by omega), if_pos (by omega)]
        omega
    simp only [leadingBit, not_and_or, not_not] at hleast
    rw [hshift, nearest_shiftLeft (by decide) (by omega) (by omega), hround, ← hmagnitude]
    exact Nat.min_eq_left h.le

/-- The number that a magnitude stands for. -/
def amount (magnitude : Nat) : ℚ :=
  units magnitude / unitsPerOne

/-- The magnitude that a number is rounded to. -/
def nearestTo (q : ℚ) : Nat :=
  nearest (q.num.toNat * unitsPerOne) q.den

theorem units_of_rat {q : ℚ} (hq : 0 ≤ q) :
    ((q.num.toNat * unitsPerOne : Nat) : ℚ) / q.den = q * unitsPerOne := by
  have hnum : ((q.num.toNat : Nat) : ℚ) = q.num := by
    exact_mod_cast Int.toNat_of_nonneg (Rat.num_nonneg.mpr hq)
  rw [Nat.cast_mul, hnum, mul_div_right_comm, Rat.num_div_den]

/-- However a number is given as a quotient of units, it is rounded to the same magnitude. -/
theorem nearest_eq_nearestTo {num den : Nat} (hden : 0 < den) {q : ℚ} (hq : 0 ≤ q)
    (h : (num : ℚ) / den = q * unitsPerOne) : nearest num den = nearestTo q := by
  have heq := h.trans (units_of_rat hq).symm
  exact le_antisymm (nearest_mono hden q.den_pos heq.le) (nearest_mono q.den_pos hden heq.ge)

theorem nearestTo_mono {p q : ℚ} (hp : 0 ≤ p) (h : p ≤ q) : nearestTo p ≤ nearestTo q := by
  refine nearest_mono p.den_pos q.den_pos ?_
  rw [units_of_rat hp, units_of_rat (hp.trans h)]
  exact mul_le_mul_of_nonneg_right h (Nat.cast_nonneg _)

theorem amount_nonneg (magnitude : Nat) : 0 ≤ amount magnitude :=
  div_nonneg (Nat.cast_nonneg _) (Nat.cast_nonneg _)

theorem amount_mul_unitsPerOne (magnitude : Nat) : amount magnitude * unitsPerOne = units magnitude :=
  div_mul_cancel₀ _ (Nat.cast_ne_zero.mpr unitsPerOne_pos.ne')

theorem nearestTo_amount_mul (magnitude a : Nat) {b : Nat} (hb : 0 < b) :
    nearestTo (amount magnitude * (a / b)) = nearest (units magnitude * a) b := by
  have hnonneg : 0 ≤ amount magnitude * ((a : ℚ) / b) := mul_nonneg (amount_nonneg _) (by positivity)
  refine (nearest_eq_nearestTo hb hnonneg ?_).symm
  rw [mul_right_comm, amount_mul_unitsPerOne, Nat.cast_mul, mul_div_assoc]

theorem nearestTo_amount {magnitude : Nat} (h : magnitude < infinite) : nearestTo (amount magnitude) = magnitude := by
  have hself := nearestTo_amount_mul magnitude 1 one_pos
  rwa [Nat.cast_one, div_one, mul_one, Nat.mul_one, nearest_units h] at hself

/-- What lies between a double and a number that rounds to it rounds to it as well. -/
theorem nearestTo_of_between {magnitude : Nat} (h : magnitude < infinite) {p q : ℚ} (hp : 0 ≤ p)
    (hrounds : nearestTo p = magnitude)
    (hbetween : p ≤ q ∧ q ≤ amount magnitude ∨ amount magnitude ≤ q ∧ q ≤ p) :
    nearestTo q = magnitude := by
  rcases hbetween with ⟨hlow, hhigh⟩ | ⟨hlow, hhigh⟩
  · exact le_antisymm ((nearestTo_mono (hp.trans hlow) hhigh).trans_eq (nearestTo_amount h))
      (hrounds.symm.trans_le (nearestTo_mono hp hlow))
  · exact le_antisymm ((nearestTo_mono ((amount_nonneg _).trans hlow) hhigh).trans_eq hrounds)
      ((nearestTo_amount h).symm.trans_le (nearestTo_mono (amount_nonneg _) hlow))

/-- What is within a part in 2^54 of a double rounds to it. -/
theorem nearestTo_of_close {magnitude : Nat} (h : magnitude < infinite) {q : ℚ}
    (hclose : |q - amount magnitude| * 2 ^ 54 ≤ amount magnitude) : nearestTo q = magnitude := by
  obtain ⟨hlow, hhigh⟩ := abs_le.mp ((le_div_iff₀ (by norm_num)).mpr hclose)
  have hnonneg := amount_nonneg magnitude
  have hbelow := (nearestTo_amount_mul magnitude (2 ^ 54 - 1) (by decide)).trans (nearest_below h)
  have habove := (nearestTo_amount_mul magnitude (2 ^ 54 + 1) (by decide)).trans (nearest_above h)
  rcases le_total q (amount magnitude) with hle | hle
  · refine nearestTo_of_between h (by positivity) hbelow (.inl ⟨?_, hle⟩)
    norm_num at hlow ⊢
    linarith
  · refine nearestTo_of_between h (by positivity) habove (.inr ⟨hle, ?_⟩)
    norm_num at hhigh ⊢
    linarith

/-! ### The nearest double -/

/-- The magnitude of a number of at most 53 digits that is shifted by some places. The least number of 54 digits may
stand for the one of 53 digits that is shifted once more. -/
theorem units_places {n places : Nat} (hn : n ≤ 2 * leadingBit) (hlow : places = 0 ∨ leadingBit ≤ n) :
    units (places * leadingBit + n) = n <<< places := by
  rcases Nat.lt_or_ge n leadingBit with hsmall | hnormal
  · obtain rfl := hlow.resolve_right (Nat.not_le.mpr hsmall)
    rw [Nat.zero_mul, Nat.zero_add, units, Nat.div_eq_of_lt hsmall, Nat.mod_eq_of_lt hsmall]
    rfl
  obtain ⟨fraction, rfl⟩ := Nat.exists_eq_add_of_le hnormal
  rcases hn.lt_or_eq with hlt | heq
  · rw [← Nat.add_assoc, ← Nat.succ_mul]
    exact units_normal (by omega) places
  · have hfraction : fraction = leadingBit := by omega
    have hnext := units_normal (show 0 < leadingBit by decide) (places + 1)
    rw [hfraction, ← Nat.add_assoc, ← Nat.succ_mul, ← Nat.succ_mul]
    rw [Nat.add_zero, Nat.add_zero] at hnext
    rw [hnext, Nat.shiftLeft_eq, Nat.shiftLeft_eq, Nat.pow_succ]
    ring

/-- A whole number within a half is the nearest one. -/
theorem abs_sub_le_of_half {x : ℚ} {n : Nat} (h : |x - n| ≤ 1 / 2) (k : Nat) : |x - n| ≤ |x - k| := by
  obtain ⟨hlow, hhigh⟩ := abs_le.mp h
  rcases Nat.lt_trichotomy k n with hlt | rfl | hlt
  · have hcast : (k + 1 : ℚ) ≤ n := by exact_mod_cast hlt
    rw [abs_of_nonneg (show 0 ≤ x - k by linarith)]
    exact h.trans (by linarith)
  · exact le_rfl
  · have hcast : (n + 1 : ℚ) ≤ k := by exact_mod_cast hlt
    rw [abs_of_nonpos (show x - k ≤ 0 by linarith)]
    exact h.trans (by linarith)

/-- No finite double is nearer to a quotient than the one it is rounded to. -/
theorem nearest_nearest {num den : Nat} (hden : 0 < den) (hfinite : nearest num den < infinite) (other : Nat) :
    |(num : ℚ) / den - units (nearest num den)| ≤ |(num : ℚ) / den - units other| := by
  obtain ⟨hhigh, hlow⟩ := divideToEven_places num hden
  have hfloor := pow_places_le (n := num / den)
  simp only [nearest] at hfinite ⊢
  generalize (num / den).log2 - 52 = places at hhigh hlow hfloor hfinite ⊢
  obtain ⟨hnear, -⟩ := divideToEven_spec num (shiftLeft_pos hden places)
  generalize divideToEven num (den <<< places) = digits at hhigh hlow hnear hfinite ⊢
  have hpow : (0 : ℚ) < 2 ^ places := by positivity
  have hquotient : (num : ℚ) / (den <<< places : Nat) = num / den / 2 ^ places := by
    rw [Nat.shiftLeft_eq, Nat.cast_mul, Nat.cast_pow, Nat.cast_ofNat, div_div]
  rw [hquotient] at hnear
  rw [min_eq_left (by omega), units_places hhigh hlow, Nat.shiftLeft_eq]
  have hmultiple (k : Nat) :
      |(num : ℚ) / den - (digits * 2 ^ places : Nat)| ≤ |(num : ℚ) / den - (k * 2 ^ places : Nat)| := by
    have hscale (n : Nat) :
        |(num : ℚ) / den - (n * 2 ^ places : Nat)| = |(num : ℚ) / den / 2 ^ places - n| * 2 ^ places := by
      rw [← abs_of_pos hpow, ← abs_mul, abs_of_pos hpow, sub_mul, div_mul_cancel₀ _ hpow.ne']
      push_cast
      rfl
    rw [hscale, hscale]
    exact mul_le_mul_of_nonneg_right (abs_sub_le_of_half hnear k) hpow.le
  obtain ⟨n, shift, hn, -, -, hother⟩ := exists_places other
  rw [hother, Nat.shiftLeft_eq]
  rcases Nat.lt_or_ge shift places with hlt | hle
  · -- the other one lies below the least number with so many places, which is no nearer itself
    have hleast : leadingBit * 2 ^ places ≤ num / den := by
      rw [leadingBit_eq, ← Nat.pow_add]
      exact hfloor (by omega)
    have hbelow : n * 2 ^ shift ≤ leadingBit * 2 ^ places := by
      calc n * 2 ^ shift ≤ 2 * leadingBit * 2 ^ shift := Nat.mul_le_mul_right _ hn.le
        _ = leadingBit * 2 ^ (shift + 1) := by rw [Nat.pow_succ]; ring
        _ ≤ leadingBit * 2 ^ places := Nat.mul_le_mul_left _ (Nat.pow_le_pow_right two_pos hlt)
    have hleast' : ((leadingBit * 2 ^ places : Nat) : ℚ) ≤ num / den :=
      le_trans (Nat.cast_le.mpr hleast) Nat.cast_div_le
    have hbelow' : ((n * 2 ^ shift : Nat) : ℚ) ≤ (leadingBit * 2 ^ places : Nat) := Nat.cast_le.mpr hbelow
    refine (hmultiple leadingBit).trans ?_
    rw [abs_of_nonneg (by linarith), abs_of_nonneg (by linarith)]
    linarith
  · have hshift : n * 2 ^ shift = n * 2 ^ (shift - places) * 2 ^ places := by
      rw [Nat.mul_assoc, ← Nat.pow_add, Nat.sub_add_cancel hle]
    rw [hshift]
    exact hmultiple _

theorem nearestTo_nearest {q : ℚ} (hq : 0 ≤ q) (hfinite : nearestTo q < infinite) (other : Nat) :
    |q - amount (nearestTo q)| ≤ |q - amount other| := by
  have hone : (0 : ℚ) < unitsPerOne := Nat.cast_pos.mpr unitsPerOne_pos
  have hscale (m : Nat) : |q * unitsPerOne - units m| = |q - amount m| * unitsPerOne := by
    rw [← amount_mul_unitsPerOne, ← sub_mul, abs_mul, abs_of_pos hone]
  have hnearest := nearest_nearest q.den_pos hfinite other
  rw [units_of_rat hq, hscale, hscale] at hnearest
  exact le_of_mul_le_mul_right hnearest hone

end StampedPrograms.Binary64
