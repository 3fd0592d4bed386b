import StampedPrograms.Proofs.Binary64.Order
import StampedPrograms.Proofs.Binary64.TextReading
import StampedPrograms.Proofs.Decimal.Value

/-!
The decimal that is found for a double. It is rounded to the double, no decimal with fewer digits is,
and of those with as many digits none is nearer. The decimals with so many digits are compared on the
grid of the multiples of one power of ten, on which the two neighbours of the double decide.
-/

namespace StampedPrograms.Binary64

variable {tie : Tie} {magnitude : Nat}

theorem units_pos (h : 0 < magnitude) : 0 < units magnitude := by
  obtain ⟨n, places, -, hlow, hmagnitude, hunits⟩ := exists_places magnitude
  have hn : 0 < n := by
    rcases hlow with rfl | hlow
    · omega
    · exact lt_of_lt_of_le (by decide) hlow
  rw [hunits]
  exact shiftLeft_pos hn places

/-- The place of the point tells the size of a number. -/
theorem decimalPoint_spec (h : 0 < magnitude) :
    (10 : ℚ) ^ (decimalPoint magnitude - 1) ≤ amount magnitude ∧
      amount magnitude < 10 ^ decimalPoint magnitude := by
  have hunits := units_pos h
  have hone : (0 : ℚ) < unitsPerOne := Nat.cast_pos.mpr unitsPerOne_pos
  simp only [decimalPoint, amount]
  generalize units magnitude = u at hunits
  have hone' := unitsPerOne_pos
  generalize unitsPerOne = one at hone hone'
  have hu : (0 : ℚ) < u := Nat.cast_pos.mpr hunits
  split
  · next hle =>
      obtain ⟨hlow, hhigh⟩ := Decimal.pow_length_toDigits (n := u / one) (Nat.div_pos hle hone')
      obtain ⟨k, hk⟩ : ∃ k, (Nat.toDigits 10 (u / one)).length = k + 1 :=
        Nat.exists_eq_succ_of_ne_zero Nat.length_toDigits_pos.ne'
      rw [hk] at hlow hhigh ⊢
      rw [Nat.le_div_iff_mul_le hone'] at hlow
      rw [Nat.div_lt_iff_lt_mul hone'] at hhigh
      rw [Nat.cast_succ, add_sub_cancel_right, zpow_natCast, le_div_iff₀ hone, div_lt_iff₀ hone,
        ← Nat.cast_succ, zpow_natCast]
      exact ⟨by exact_mod_cast hlow, by exact_mod_cast hhigh⟩
  · next hlt =>
      -- the digits of a reciprocal, rounded up and made smaller by one
      obtain ⟨hlow, hhigh⟩ := Decimal.pow_length_toDigits (n := (one - 1) / u) (Nat.div_pos (by omega) hunits)
      obtain ⟨k, hk⟩ : ∃ k, (Nat.toDigits 10 ((one - 1) / u)).length = k + 1 :=
        Nat.exists_eq_succ_of_ne_zero Nat.length_toDigits_pos.ne'
      rw [hk] at hlow hhigh ⊢
      rw [Nat.succ_sub_one, Nat.le_div_iff_mul_le hunits] at hlow
      rw [Nat.div_lt_iff_lt_mul hunits] at hhigh
      have hlow' : 10 ^ k * u < one := by omega
      have hhigh' : one ≤ 10 ^ (k + 1) * u := by omega
      rw [show (1 : ℤ) - (k + 1 : Nat) - 1 = -((k + 1 : Nat) : ℤ) by push_cast; ring,
        show (1 : ℤ) - (k + 1 : Nat) = -(k : ℤ) by push_cast; ring, zpow_neg, zpow_neg, zpow_natCast,
        zpow_natCast, le_div_iff₀ hone, div_lt_iff₀ hone, inv_mul_le_iff₀ (by positivity),
        lt_inv_mul_iff₀ (by positivity)]
      exact ⟨by exact_mod_cast hhigh', by exact_mod_cast hlow'⟩

/-! ### The grid of the multiples of a power of ten -/

/-- A power of ten with the power that stands below it in a quotient. -/
theorem zpow_toNat (exponent : ℤ) : (10 : ℚ) ^ exponent.toNat / 10 ^ (-exponent).toNat = 10 ^ exponent := by
  have hparts : exponent = (exponent.toNat : ℤ) - (-exponent).toNat := by omega
  conv_rhs => rw [hparts, zpow_sub₀ (by norm_num), zpow_natCast, zpow_natCast]

theorem nearestTo_zero : nearestTo 0 = 0 := by
  simp [nearestTo, nearest, divideToEven]

theorem magnitude_ofScaled (negative : Bool) (coefficient : Nat) (exponent : Int) :
    (ofScaled negative coefficient exponent).magnitude = nearestTo (coefficient * 10 ^ exponent) := by
  refine nearest_eq_nearestTo (Nat.pow_pos (by decide)) (by positivity) ?_
  simp only [Nat.pow_eq]
  rw [← zpow_toNat]
  push_cast
  ring

theorem readsBack_iff (magnitude coefficient : Nat) (exponent : Int) :
    readsBack magnitude coefficient exponent = true ↔ nearestTo (coefficient * 10 ^ exponent) = magnitude := by
  rw [readsBack, beq_iff_eq, magnitude_ofScaled]

theorem coefficient_pos_of_reads_back (hpos : 0 < magnitude) {coefficient : Nat} {exponent : ℤ}
    (hreads : nearestTo (coefficient * 10 ^ exponent) = magnitude) : 0 < coefficient := by
  refine Nat.pos_of_ne_zero ?_
  rintro rfl
  rw [Nat.cast_zero, zero_mul, nearestTo_zero] at hreads
  exact hpos.ne hreads

/-- A double lies on a grid between the two neighbours that are tried, `rest` of a step above the lower one. -/
theorem neighbours_spec (magnitude : Nat) (exponent : Int) :
    let num := units magnitude * Nat.pow 10 (-exponent).toNat
    let den := unitsPerOne * Nat.pow 10 exponent.toNat
    ∃ rest : ℚ, 0 ≤ rest ∧ rest < 1 ∧ amount magnitude = ((num / den : Nat) + rest) * 10 ^ exponent ∧
      (2 * (num % den) ≤ den ↔ 2 * rest ≤ 1) ∧ (den ≤ 2 * (num % den) ↔ 1 ≤ 2 * rest) := by
  intro num den
  have hden : 0 < den := Nat.mul_pos unitsPerOne_pos (Nat.pow_pos (by decide))
  have hpos : (0 : ℚ) < den := Nat.cast_pos.mpr hden
  have hone : (0 : ℚ) < unitsPerOne := Nat.cast_pos.mpr unitsPerOne_pos
  have hamount : amount magnitude = num / den * 10 ^ exponent := by
    simp only [num, den, amount, Nat.pow_eq]
    rw [← zpow_toNat]
    push_cast
    field_simp
  have hsplit : (num : ℚ) = den * (num / den : Nat) + (num % den : Nat) := by
    exact_mod_cast (Nat.div_add_mod num den).symm
  refine ⟨(num % den : Nat) / den, div_nonneg (Nat.cast_nonneg _) hpos.le, ?_, ?_, ?_, ?_⟩
  · rw [div_lt_one hpos]
    exact_mod_cast Nat.mod_lt num hden
  · rw [hamount, hsplit, add_div, mul_div_cancel_left₀ _ hpos.ne']
  · rw [← mul_div_assoc, div_le_one hpos]
    exact_mod_cast Iff.rfl
  · rw [← mul_div_assoc, one_le_div hpos]
    exact_mod_cast Iff.rfl

theorem pick_eq_none_iff {below twice den : Nat} {belowDoes aboveDoes : Bool} :
    pick tie below twice den belowDoes aboveDoes = none ↔ belowDoes = false ∧ aboveDoes = false := by
  cases belowDoes <;> cases aboveDoes <;> simp [pick]
  split <;> (try split) <;> cases tie <;> simp

/-- Whatever reads back on a grid, the neighbour on its side does too. -/
theorem neighbour_reads_back (h : magnitude < infinite) {coefficient below : Nat} {exponent : Int} {rest : ℚ}
    (hlow : 0 ≤ rest) (hhigh : rest < 1) (hamount : amount magnitude = (below + rest) * 10 ^ exponent)
    (hreads : nearestTo (coefficient * 10 ^ exponent) = magnitude) :
    (coefficient ≤ below → readsBack magnitude below exponent = true) ∧
      (below < coefficient → readsBack magnitude (below + 1) exponent = true) := by
  have hgrid : (0 : ℚ) ≤ 10 ^ exponent := by positivity
  have hnonneg : (0 : ℚ) ≤ coefficient * 10 ^ exponent := mul_nonneg (Nat.cast_nonneg _) hgrid
  rw [readsBack_iff, readsBack_iff]
  constructor
  · intro hle
    have hle' : (coefficient : ℚ) ≤ below := Nat.cast_le.mpr hle
    refine nearestTo_of_between h hnonneg hreads (.inl ⟨mul_le_mul_of_nonneg_right hle' hgrid, ?_⟩)
    rw [hamount]
    exact mul_le_mul_of_nonneg_right (le_add_of_nonneg_right hlow) hgrid
  · intro hlt
    have hle : ((below + 1 : Nat) : ℚ) ≤ coefficient := Nat.cast_le.mpr hlt
    refine nearestTo_of_between h hnonneg hreads (.inr ⟨?_, mul_le_mul_of_nonneg_right hle hgrid⟩)
    rw [hamount, Nat.cast_succ]
    exact mul_le_mul_of_nonneg_right (add_le_add_right hhigh.le _) hgrid

/-- If any number on a grid reads back, one of the two neighbours does. -/
theorem exists_neighbour (tie : Tie) (h : magnitude < infinite) {coefficient : Nat} {exponent : Int}
    (hreads : nearestTo (coefficient * 10 ^ exponent) = magnitude) :
    ∃ picked, neighbour? tie magnitude exponent = some picked := by
  obtain ⟨rest, hlow, hhigh, hamount, -⟩ := neighbours_spec magnitude exponent
  obtain ⟨hbelow, habove⟩ := neighbour_reads_back h hlow hhigh hamount hreads
  rw [← Option.ne_none_iff_exists']
  intro hnone
  obtain ⟨hnot, hnot'⟩ := pick_eq_none_iff.mp hnone
  rcases Nat.lt_or_ge _ coefficient with hlt | hle
  · rw [habove hlt] at hnot'
    cases hnot'
  · rw [hbelow hle] at hnot
    cases hnot

/-- Of the whole numbers before and after a number each is the nearest one on its side, and the nearer of the two is
the nearest of all. -/
theorem nearer_neighbour {below picked n : Nat} {rest : ℚ} (hlow : 0 ≤ rest) (hhigh : rest < 1)
    (hpicked : picked = below ∧ (below < n → 2 * rest ≤ 1) ∨
      picked = below + 1 ∧ (n ≤ below → 1 ≤ 2 * rest)) :
    |(picked : ℚ) - (below + rest)| ≤ |(n : ℚ) - (below + rest)| := by
  have hbelow : |(below : ℚ) - (below + rest)| = rest := by
    rw [sub_add_cancel_left, abs_neg, abs_of_nonneg hlow]
  have habove : |((below + 1 : Nat) : ℚ) - (below + rest)| = 1 - rest := by
    rw [Nat.cast_succ, add_sub_add_left_eq_sub, abs_of_pos (sub_pos.mpr hhigh)]
  rcases Nat.lt_or_ge below n with hlt | hle
  · have hcast : (below + 1 : ℚ) ≤ n := by exact_mod_cast hlt
    rw [abs_of_nonneg (show 0 ≤ (n : ℚ) - (below + rest) by linarith)]
    rcases hpicked with ⟨rfl, hother⟩ | ⟨rfl, -⟩
    · have := hother hlt
      linarith
    · linarith
  · have hcast : (n : ℚ) ≤ below := Nat.cast_le.mpr hle
    rw [abs_of_nonpos (show (n : ℚ) - (below + rest) ≤ 0 by linarith)]
    rcases hpicked with ⟨rfl, -⟩ | ⟨rfl, hother⟩
    · linarith
    · have := hother hle
      linarith

/-- The neighbour that is taken reads back, and no number on the grid that does is nearer. -/
theorem neighbour_spec (h : magnitude < infinite) {exponent : Int} {picked : Nat}
    (hpicked : neighbour? tie magnitude exponent = some picked) :
    nearestTo (picked * 10 ^ exponent) = magnitude ∧ (picked - 1 : ℚ) * 10 ^ exponent ≤ amount magnitude ∧
      ∀ n : Nat, nearestTo (n * 10 ^ exponent) = magnitude →
        |picked * 10 ^ exponent - amount magnitude| ≤ |n * 10 ^ exponent - amount magnitude| := by
  obtain ⟨rest, hlow, hhigh, hamount, hhalf, hhalf'⟩ := neighbours_spec magnitude exponent
  have hpick := pick_spec hpicked
  rw [hhalf, hhalf'] at hpick
  generalize units magnitude * Nat.pow 10 (-exponent).toNat /
    (unitsPerOne * Nat.pow 10 exponent.toNat) = below at hamount hpick
  have hgrid : (0 : ℚ) < 10 ^ exponent := by positivity
  have hdistance (n : Nat) :
      |n * 10 ^ exponent - amount magnitude| = |n - (below + rest)| * 10 ^ exponent := by
    rw [hamount, ← sub_mul, abs_mul, abs_of_pos hgrid]
  refine ⟨?_, ?_, fun n hreads => ?_⟩
  · rw [← magnitude_ofScaled false, magnitude_of_neighbour hpicked]
  · have hle : (picked : ℚ) ≤ below + 1 := by
      rcases hpick with ⟨rfl, -⟩ | ⟨rfl, -⟩ <;> push_cast <;> linarith
    rw [hamount]
    exact mul_le_mul_of_nonneg_right (by linarith) hgrid.le
  · obtain ⟨hbelow, habove⟩ := neighbour_reads_back h hlow hhigh hamount hreads
    rw [hdistance, hdistance]
    refine mul_le_mul_of_nonneg_right (nearer_neighbour hlow hhigh ?_) hgrid.le
    exact hpick.imp (fun hp => ⟨hp.1, fun hlt => hp.2.2 (habove hlt)⟩)
      fun hp => ⟨hp.1, fun hle => hp.2.2 (hbelow hle)⟩

/-- A step of the grid of seventeen digits is so short that the nearer neighbour reads back. -/
theorem exists_neighbour_seventeen (tie : Tie) (hpos : 0 < magnitude) (h : magnitude < infinite) :
    ∃ picked, neighbour? tie magnitude (decimalPoint magnitude - (17 : Nat)) = some picked := by
  obtain ⟨hleast, -⟩ := decimalPoint_spec hpos
  generalize hexponent : decimalPoint magnitude - (17 : Nat) = exponent
  obtain ⟨rest, hlow, hhigh, hamount, -⟩ := neighbours_spec magnitude exponent
  generalize units magnitude * Nat.pow 10 (-exponent).toNat /
    (unitsPerOne * Nat.pow 10 exponent.toNat) = below at hamount
  have hstep : (10 : ℚ) ^ 16 * 10 ^ exponent = 10 ^ (decimalPoint magnitude - 1) :=
    Decimal.pow_mul_zpow (by omega)
  have hgrid : (0 : ℚ) < 10 ^ exponent := by positivity
  have hreads (n : Nat) (hnear : |(n : ℚ) - (below + rest)| ≤ 1 / 2) :
      nearestTo (n * 10 ^ exponent) = magnitude := by
    refine nearestTo_of_close h ?_
    calc |(n : ℚ) * 10 ^ exponent - amount magnitude| * 2 ^ 54
        = |(n : ℚ) - (below + rest)| * 10 ^ exponent * 2 ^ 54 := by
          rw [hamount, ← sub_mul, abs_mul, abs_of_pos hgrid]
      _ ≤ 1 / 2 * 10 ^ exponent * 2 ^ 54 := by gcongr
      _ = 2 ^ 53 * 10 ^ exponent := by ring
      _ ≤ 10 ^ 16 * 10 ^ exponent := mul_le_mul_of_nonneg_right (by norm_num) hgrid.le
      _ ≤ amount magnitude := hstep.trans_le hleast
  rcases le_total rest (1 / 2) with hhalf | hhalf
  · refine exists_neighbour tie h (hreads below ?_)
    rwa [sub_add_cancel_left, abs_neg, abs_of_nonneg hlow]
  · refine exists_neighbour tie h (hreads (below + 1) ?_)
    rw [Nat.cast_succ, add_sub_add_left_eq_sub, abs_of_pos (sub_pos.mpr hhigh)]
    linarith

/-- Among the decimals with so many digits those on the grid are all that count: any other one is smaller than the
least of them, which is a power of ten. -/
theorem exists_on_grid (hpos : 0 < magnitude) (h : magnitude < infinite) {d : Decimal}
    (hreads : nearestTo d.value = magnitude) {count : Nat} (hcount : 0 < count)
    (hlt : d.coefficient < 10 ^ count) :
    ∃ n : Nat, nearestTo (n * 10 ^ (decimalPoint magnitude - count)) = magnitude ∧
      |n * 10 ^ (decimalPoint magnitude - count) - amount magnitude| ≤ |d.value - amount magnitude| := by
  obtain ⟨hleast, -⟩ := decimalPoint_spec hpos
  generalize hexponent : decimalPoint magnitude - count = exponent
  by_cases hle : exponent ≤ d.exponent
  · obtain ⟨zeros, hzeros⟩ := Int.eq_ofNat_of_zero_le (sub_nonneg.mpr hle)
    have hvalue : d.value = (d.coefficient * 10 ^ zeros : Nat) * 10 ^ exponent := by
      rw [Decimal.value, ← Decimal.pow_mul_zpow (show zeros + exponent = d.exponent by omega)]
      push_cast
      ring
    refine ⟨d.coefficient * 10 ^ zeros, ?_⟩
    rw [← hvalue]
    exact ⟨hreads, le_rfl⟩
  · have hpower : ((10 ^ (count - 1) : Nat) : ℚ) * 10 ^ exponent = 10 ^ (decimalPoint magnitude - 1) := by
      rw [Nat.cast_pow, Nat.cast_ofNat]
      exact Decimal.pow_mul_zpow (by omega)
    have hsmall : d.value ≤ 10 ^ (decimalPoint magnitude - 1) := by
      have hcoefficient : (d.coefficient : ℚ) ≤ 10 ^ count := by exact_mod_cast hlt.le
      calc d.value ≤ 10 ^ count * 10 ^ d.exponent := mul_le_mul_of_nonneg_right hcoefficient (by positivity)
        _ = 10 ^ (count + d.exponent) := Decimal.pow_mul_zpow rfl
        _ ≤ 10 ^ (decimalPoint magnitude - 1) := zpow_le_zpow_right₀ (by norm_num) (by omega)
    refine ⟨10 ^ (count - 1), ?_, ?_⟩
    · rw [hpower]
      exact nearestTo_of_between h d.value_nonneg hreads (.inl ⟨hsmall, hleast⟩)
    · rw [hpower, abs_of_nonpos (by linarith), abs_of_nonpos (by linarith)]
      linarith

theorem findSome?_range_eq_some {α : Type} {f : Nat → Option α} {n : Nat} {a : α}
    (h : (List.range n).findSome? f = some a) : ∃ k < n, f k = some a ∧ ∀ j < k, f j = none := by
  induction n with
  | zero => cases h
  | succ n ih =>
      rw [List.range_succ, List.findSome?_append] at h
      cases hearlier : (List.range n).findSome? f with
      | some b =>
          rw [hearlier, Option.some_or] at h
          obtain ⟨k, hk, hfound⟩ := ih (hearlier.trans h)
          exact ⟨k, hk.trans n.lt_succ_self, hfound⟩
      | none =>
          rw [hearlier, Option.none_or, List.findSome?_singleton] at h
          have hnone := List.findSome?_eq_none_iff.mp hearlier
          exact ⟨n, n.lt_succ_self, h, fun j hj => hnone j (List.mem_range.mpr hj)⟩

/-- The search ends at the first grid on which a neighbour reads back. -/
theorem exists_search (tie : Tie) (hpos : 0 < magnitude) (h : magnitude < infinite) :
    ∃ count picked, 0 < count ∧
      neighbour? tie magnitude (decimalPoint magnitude - (count : Nat)) = some picked ∧
      shortest tie magnitude = Decimal.stripped picked (decimalPoint magnitude - (count : Nat)) ∧
      ∀ fewer, 0 < fewer → fewer < count →
        neighbour? tie magnitude (decimalPoint magnitude - (fewer : Nat)) = none := by
  rw [shortest]
  dsimp only
  cases hattempt : (List.range 17).findSome? fun count =>
      (neighbour? tie magnitude (decimalPoint magnitude - (count + 1 : Nat))).map fun coefficient =>
        Decimal.stripped coefficient (decimalPoint magnitude - (count + 1 : Nat)) with
  | some d =>
      obtain ⟨count, -, hfound, hearlier⟩ := findSome?_range_eq_some hattempt
      obtain ⟨picked, hpicked, rfl⟩ := Option.map_eq_some_iff.mp hfound
      refine ⟨count + 1, picked, count.succ_pos, hpicked, rfl, fun fewer hfewer hlt => ?_⟩
      obtain ⟨earlier, rfl⟩ := Nat.exists_eq_succ_of_ne_zero hfewer.ne'
      exact Option.map_eq_none_iff.mp (hearlier earlier (by omega))
  | none =>
      -- no search gets past the seventeenth grid
      obtain ⟨picked, hpicked⟩ := exists_neighbour_seventeen tie hpos h
      have hlast := List.findSome?_eq_none_iff.mp hattempt 16 (by decide)
      rw [Option.map_eq_none_iff, hpicked] at hlast
      cases hlast

/-- A neighbour has no more digits than the grid allows, unless it is the power of ten that follows them. -/
theorem neighbour_le (hpos : 0 < magnitude) {count picked : Nat}
    (h : (picked - 1 : ℚ) * 10 ^ (decimalPoint magnitude - count) ≤ amount magnitude) : picked ≤ 10 ^ count := by
  obtain ⟨-, hsize⟩ := decimalPoint_spec hpos
  have hstep : (10 : ℚ) ^ count * 10 ^ (decimalPoint magnitude - count) = 10 ^ decimalPoint magnitude :=
    Decimal.pow_mul_zpow (add_sub_cancel _ _)
  have hlt := lt_of_mul_lt_mul_right (h.trans_lt (hsize.trans_eq hstep.symm)) (by positivity)
  have hlt' : (picked : ℚ) < (10 ^ count + 1 : Nat) := by
    push_cast
    linarith
  exact Nat.lt_succ_iff.mp (by exact_mod_cast hlt')

/-- What makes a decimal the shortest one for a magnitude: it is rounded to the magnitude, to which it is as near as to
any, no decimal that is rounded to it has fewer digits, and none that has as many is nearer. No zero stands at its
end. -/
structure Shortest (magnitude : Nat) (d : Decimal) : Prop where
  reads_back : nearestTo d.value = magnitude
  nearest : ∀ other : Nat, |d.value - amount magnitude| ≤ |d.value - amount other|
  fewest : ∀ other : Decimal, nearestTo other.value = magnitude → d.digits.length ≤ other.digits.length
  closest : ∀ other : Decimal, nearestTo other.value = magnitude → other.digits.length ≤ d.digits.length →
    |d.value - amount magnitude| ≤ |other.value - amount magnitude|
  stripped : d.coefficient % 10 ≠ 0

theorem shortest_spec (tie : Tie) (hpos : 0 < magnitude) (h : magnitude < infinite) :
    Shortest magnitude (shortest tie magnitude) := by
  obtain ⟨count, picked, hcount, hpicked, hshortest, hfirst⟩ := exists_search tie hpos h
  obtain ⟨hreads, hbound, hclosest⟩ := neighbour_spec h hpicked
  have hpicked_pos := coefficient_pos_of_reads_back hpos hreads
  obtain ⟨hvalue, hlast, hle, -⟩ := Decimal.stripped_spec hpicked_pos (decimalPoint magnitude - (count : Nat))
  rw [← hshortest] at hvalue hlast hle
  have hdigits : (shortest tie magnitude).coefficient < 10 ^ count := by
    refine lt_of_le_of_ne (hle.trans (neighbour_le hpos hbound)) fun heq => hlast ?_
    rw [heq, ← Nat.succ_pred_eq_of_pos hcount, Nat.pow_succ]
    exact Nat.mul_mod_left _ _
  have hlength : (shortest tie magnitude).digits.length ≤ count :=
    (Decimal.length_digits_le_iff _ hcount).mpr hdigits
  rw [← hvalue] at hreads
  have hnearest := nearestTo_nearest (shortest tie magnitude).value_nonneg (by rwa [hreads])
  rw [hreads] at hnearest
  refine ⟨hreads, hnearest, fun other hother => hlength.trans ?_, fun other hother hfewer => ?_, hlast⟩
  · by_contra hlt
    have hother_pos : 0 < other.digits.length := Nat.length_toDigits_pos
    obtain ⟨n, hgrid, -⟩ := exists_on_grid hpos h hother hother_pos
      ((Decimal.length_digits_le_iff other hother_pos).mp le_rfl)
    obtain ⟨earlier, hearlier⟩ := exists_neighbour tie h hgrid
    rw [hfirst _ hother_pos (not_le.mp hlt)] at hearlier
    cases hearlier
  · obtain ⟨n, hgrid, hnear⟩ := exists_on_grid hpos h hother hcount
      ((Decimal.length_digits_le_iff other hcount).mp (hfewer.trans hlength))
    rw [hvalue]
    exact (hclosest n hgrid).trans hnear

end StampedPrograms.Binary64
