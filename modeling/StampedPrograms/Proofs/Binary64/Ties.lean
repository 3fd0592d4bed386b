import StampedPrograms.Proofs.Binary64.Shortest

/-!
A double may have two shortest decimals. They are numbers in succession on one grid with the double midway between
them, so one of them is even, and that is the one which ECMAScript takes. The search takes the one its tie asks for.
-/

namespace StampedPrograms.Binary64

variable {magnitude : Nat} {d d' : Decimal}

theorem Shortest.same_length (h : Shortest magnitude d) (h' : Shortest magnitude d') :
    d.digits.length = d'.digits.length :=
  le_antisymm (h.fewest d' h'.reads_back) (h'.fewest d h.reads_back)

theorem Shortest.same_distance (h : Shortest magnitude d) (h' : Shortest magnitude d') :
    |d.value - amount magnitude| = |d'.value - amount magnitude| :=
  le_antisymm (h.closest d' h'.reads_back (h.same_length h').ge)
    (h'.closest d h.reads_back (h.same_length h').le)

theorem Shortest.midway (h : Shortest magnitude d) (h' : Shortest magnitude d') (hlt : d.value < d'.value) :
    d.value + d'.value = 2 * amount magnitude := by
  rcases abs_eq_abs.mp (h.same_distance h') with heq | heq <;> linarith

/-- What lies between two shortest decimals is nearer than they are, so it has more digits. -/
theorem Shortest.longer_between (hfinite : magnitude < infinite) (h : Shortest magnitude d)
    (h' : Shortest magnitude d') (between : Decimal) (hlow : d.value < between.value)
    (hhigh : between.value < d'.value) : d.digits.length < between.digits.length := by
  by_contra hfewer
  have hmidway := h.midway h' (hlow.trans hhigh)
  have hreads : nearestTo between.value = magnitude := by
    rcases le_total between.value (amount magnitude) with hle | hle
    · exact nearestTo_of_between hfinite d.value_nonneg h.reads_back (.inl ⟨hlow.le, hle⟩)
    · exact nearestTo_of_between hfinite d'.value_nonneg h'.reads_back (.inr ⟨hle, hhigh.le⟩)
  have hclosest := h.closest between hreads (not_lt.mp hfewer)
  have hnearer : |between.value - amount magnitude| < amount magnitude - d.value :=
    abs_lt.mpr ⟨by linarith, by linarith⟩
  rw [abs_of_nonpos (by linarith)] at hclosest
  linarith

/-- A double is a multiple of its distance to the next one. -/
theorem exists_step (magnitude : Nat) :
    ∃ n places : Nat, amount magnitude = n * (2 ^ places / unitsPerOne) ∧
      amount (magnitude + 1) = amount magnitude + 2 ^ places / unitsPerOne := by
  obtain ⟨n, places, hn, hlow, hmagnitude, hunits⟩ := exists_places magnitude
  have hamount : amount magnitude = n * (2 ^ places / unitsPerOne) := by
    rw [amount, hunits, Nat.shiftLeft_eq]
    push_cast
    ring
  refine ⟨n, places, hamount, ?_⟩
  rw [hamount, amount, hmagnitude, Nat.add_assoc, units_places (by omega) (hlow.imp_right (by omega)),
    Nat.shiftLeft_eq]
  push_cast
  ring

/-- The double midway between nine and ten times a power of ten is divisible by nineteen. -/
theorem nineteen_dvd {n places : Nat} {exponent : ℤ}
    (h : 2 * (n * (2 ^ places / unitsPerOne) : ℚ) = 19 * 10 ^ exponent) : 19 ∣ n := by
  have hone : (0 : ℚ) < unitsPerOne := Nat.cast_pos.mpr unitsPerOne_pos
  have hscaled : n * (2 ^ (places + 1) * 10 ^ (-exponent).toNat) = 19 * (10 ^ exponent.toNat * unitsPerOne) := by
    rw [← zpow_toNat] at h
    field_simp at h
    have hcast : (n : ℚ) * (2 ^ (places + 1) * 10 ^ (-exponent).toNat) =
        19 * (10 ^ exponent.toNat * unitsPerOne) := by
      rw [pow_succ]
      linarith
    exact_mod_cast hcast
  have hcoprime : Nat.Coprime 19 (2 ^ (places + 1) * 10 ^ (-exponent).toNat) :=
    Nat.Coprime.mul_right (Nat.Coprime.pow_right _ (by decide)) (Nat.Coprime.pow_right _ (by decide))
  exact hcoprime.dvd_of_dvd_mul_right (Dvd.intro _ hscaled.symm)

/-- No double to which ten times a power of ten is rounded lies midway between that and nine times the power: the next
double would be nearer. -/
theorem not_midway_nine_ten (hpos : 0 < magnitude) (hfinite : magnitude < infinite) {exponent : ℤ}
    (hreads : nearestTo (10 * 10 ^ exponent) = magnitude) : 2 * amount magnitude ≠ 19 * 10 ^ exponent := by
  intro hmidway
  obtain ⟨n, places, hamount, hnext⟩ := exists_step magnitude
  have hone : (0 : ℚ) < unitsPerOne := Nat.cast_pos.mpr unitsPerOne_pos
  have hstep : (0 : ℚ) < 2 ^ places / unitsPerOne := div_pos (by positivity) hone
  have hdvd : 19 ∣ n := nineteen_dvd (hamount ▸ hmidway)
  have hn : 0 < n := by
    have hamount_pos : 0 < amount magnitude := div_pos (Nat.cast_pos.mpr (units_pos hpos)) hone
    rw [hamount] at hamount_pos
    exact Nat.cast_pos.mp (pos_of_mul_pos_left hamount_pos hstep.le)
  have hnineteen : (19 : ℚ) ≤ n := by exact_mod_cast Nat.le_of_dvd hn hdvd
  have hshort : 19 * (2 ^ places / unitsPerOne : ℚ) ≤ amount magnitude := by
    rw [hamount]
    exact mul_le_mul_of_nonneg_right hnineteen hstep.le
  have hnearest := nearestTo_nearest (q := 10 * 10 ^ exponent) (by positivity) (by rwa [hreads]) (magnitude + 1)
  rw [hreads, hnext, abs_of_nonneg (by linarith), abs_of_nonneg (by linarith)] at hnearest
  linarith

theorem Shortest.coefficient_pos (h : Shortest magnitude d) : 0 < d.coefficient :=
  Nat.pos_of_ne_zero fun hzero => h.stripped (by rw [hzero])

theorem Shortest.eq_of_value_eq (h : Shortest magnitude d) (h' : Shortest magnitude d')
    (hvalue : d.value = d'.value) : d = d' :=
  Decimal.eq_of_value_eq h.stripped h'.stripped hvalue

/-- If two shortest decimals lay on different grids, the upper one would be the power of ten above the lower one. -/
theorem Shortest.upper_eq_power (hfinite : magnitude < infinite) (h : Shortest magnitude d)
    (h' : Shortest magnitude d') (hexponent : d.exponent < d'.exponent) : d' = ⟨1, d.point⟩ := by
  have hlength := h.same_length h'
  obtain ⟨-, hhigh⟩ := Decimal.value_bounds h.coefficient_pos
  obtain ⟨hlow, -⟩ := Decimal.value_bounds h'.coefficient_pos
  have hpower : (⟨1, d.point⟩ : Decimal).value = 10 ^ d.point := by
    rw [Decimal.value, Nat.cast_one, one_mul]
  have hdigit : (⟨1, d.point⟩ : Decimal).digits.length = 1 := Decimal.length_digits_eq_one (by decide) _
  have hle : (10 : ℚ) ^ d.point ≤ d'.value :=
    (zpow_le_zpow_right₀ (by norm_num) (by simp only [Decimal.point]; omega)).trans hlow
  refine Decimal.eq_of_value_eq h'.stripped (by decide : 1 % 10 ≠ 0) (le_antisymm ?_ (hpower.trans_le hle))
  by_contra hbetween
  have hfewer := h.longer_between hfinite h' _ (hhigh.trans_eq hpower.symm) (not_le.mp hbetween)
  rw [hdigit] at hfewer
  exact hfewer.not_ge Nat.length_toDigits_pos

/-- Two shortest decimals lie on one grid: otherwise they would be nine and ten times a power of ten. -/
theorem Shortest.exponent_eq (hpos : 0 < magnitude) (hfinite : magnitude < infinite) (h : Shortest magnitude d)
    (h' : Shortest magnitude d') (hlt : d.value < d'.value) : d.exponent = d'.exponent := by
  have hgrid : (0 : ℚ) < 10 ^ d.exponent := by positivity
  rcases lt_trichotomy d.exponent d'.exponent with hexponent | hexponent | hexponent
  · exfalso
    have hupper := h.upper_eq_power hfinite h' hexponent
    have hone : d.digits.length = 1 := by
      rw [h.same_length h', hupper, Decimal.length_digits_eq_one (by decide)]
    have hten : d'.value = 10 * 10 ^ d.exponent := by
      rw [hupper, Decimal.value, Nat.cast_one, one_mul, Decimal.point, hone, ← Decimal.pow_mul_zpow rfl, pow_one]
    have hnine : d.coefficient = 9 := by
      have hsmall : d.coefficient < 10 := (Decimal.length_digits_le_iff d one_pos).mp hone.le
      by_contra hne
      have hlonger := h.longer_between hfinite h' ⟨9, d.exponent⟩
        (mul_lt_mul_of_pos_right (Nat.cast_lt.mpr (show d.coefficient < 9 by omega)) hgrid)
        (hten ▸ mul_lt_mul_of_pos_right (by norm_num) hgrid)
      rw [hone, Decimal.length_digits_eq_one (by decide)] at hlonger
      exact hlonger.false
    have hmidway := h.midway h' hlt
    rw [hten, Decimal.value, hnine] at hmidway
    refine not_midway_nine_ten hpos hfinite (hten ▸ h'.reads_back) (hmidway.symm.trans ?_)
    push_cast
    ring
  · exact hexponent
  · obtain ⟨hlow, -⟩ := Decimal.value_bounds h.coefficient_pos
    obtain ⟨-, hhigh⟩ := Decimal.value_bounds h'.coefficient_pos
    have hlength := h.same_length h'
    have hle : (10 : ℚ) ^ d'.point ≤ 10 ^ (d.point - 1) :=
      zpow_le_zpow_right₀ (by norm_num) (by simp only [Decimal.point]; omega)
    linarith

/-- Two shortest decimals are numbers in succession on their grid. -/
theorem Shortest.adjacent (hpos : 0 < magnitude) (hfinite : magnitude < infinite) (h : Shortest magnitude d)
    (h' : Shortest magnitude d') (hlt : d.value < d'.value) : d' = ⟨d.coefficient + 1, d.exponent⟩ := by
  have hexponent := h.exponent_eq hpos hfinite h' hlt
  have hlength := h.same_length h'
  have hgrid : (0 : ℚ) < 10 ^ d.exponent := by positivity
  obtain ⟨coefficient', exponent'⟩ := d'
  subst hexponent
  rw [Decimal.mk.injEq]
  refine ⟨?_, rfl⟩
  have hless : d.coefficient < coefficient' := Nat.cast_lt.mp (lt_of_mul_lt_mul_right hlt hgrid.le)
  have hdigits : coefficient' < 10 ^ d.digits.length :=
    (Decimal.length_digits_le_iff _ Nat.length_toDigits_pos).mp hlength.ge
  by_contra hne
  have hnext : d.coefficient + 1 < coefficient' := by omega
  have hlonger := h.longer_between hfinite h' ⟨d.coefficient + 1, d.exponent⟩
    (mul_lt_mul_of_pos_right (Nat.cast_lt.mpr d.coefficient.lt_succ_self) hgrid)
    (mul_lt_mul_of_pos_right (Nat.cast_lt.mpr hnext) hgrid)
  exact hlonger.not_ge ((Decimal.length_digits_le_iff _ Nat.length_toDigits_pos).mpr (hnext.trans hdigits))

/-- The one of two numbers in succession that is taken for what lies midway between them. -/
def Tie.taken (tie : Tie) (below : Nat) : Nat :=
  match tie with
  | .up => below + 1
  | .even => below + below % 2

theorem pick_midway (tie : Tie) (below den : Nat) : pick tie below den den true true = some (tie.taken below) := by
  cases tie <;> simp [pick, Tie.taken]

/-- Of two neighbours that read back, with the double midway between them, the tie takes one. -/
theorem neighbour_midway (tie : Tie) {below : Nat} {exponent : ℤ}
    (hmidway : amount magnitude = (below + 1 / 2) * 10 ^ exponent)
    (hreads : nearestTo (below * 10 ^ exponent) = magnitude)
    (hreads' : nearestTo ((below + 1 : Nat) * 10 ^ exponent) = magnitude) :
    neighbour? tie magnitude exponent = some (tie.taken below) := by
  obtain ⟨rest, hlow, hhigh, hamount, hhalf, hhalf'⟩ := neighbours_spec magnitude exponent
  rw [neighbour?]
  generalize units magnitude * Nat.pow 10 (-exponent).toNat = num at hamount hhalf hhalf' ⊢
  generalize unitsPerOne * Nat.pow 10 exponent.toNat = den at hamount hhalf hhalf' ⊢
  have hgrid : (10 : ℚ) ^ exponent ≠ 0 := by positivity
  have hsum : ((num / den : Nat) : ℚ) + rest = below + 1 / 2 :=
    mul_right_cancel₀ hgrid (hamount.symm.trans hmidway)
  have hbelow : num / den = below := by
    have hlt : ((num / den : Nat) : ℚ) < (below + 1 : Nat) := by
      push_cast
      linarith
    have hlt' : (below : ℚ) < (num / den + 1 : Nat) := by
      push_cast
      linarith
    exact le_antisymm (Nat.lt_succ_iff.mp (Nat.cast_lt.mp hlt)) (Nat.lt_succ_iff.mp (Nat.cast_lt.mp hlt'))
  rw [hbelow, add_right_inj] at hsum
  have hden : 2 * (num % den) = den := by
    rw [hsum] at hhalf hhalf'
    exact le_antisymm (hhalf.mpr (by norm_num)) (hhalf'.mpr (by norm_num))
  rw [hbelow, hden, (readsBack_iff ..).mpr hreads, (readsBack_iff ..).mpr hreads']
  exact pick_midway tie below den

/-- Of two shortest decimals the search takes the one that its tie asks for. -/
theorem shortest_of_lt (tie : Tie) (hpos : 0 < magnitude) (hfinite : magnitude < infinite) (h : Shortest magnitude d)
    (h' : Shortest magnitude d') (hlt : d.value < d'.value) :
    shortest tie magnitude = ⟨tie.taken d.coefficient, d.exponent⟩ := by
  have hsum := h.midway h' hlt
  have hreads' := h'.reads_back
  rw [h.adjacent hpos hfinite h' hlt] at hsum hreads'
  have hmidway : amount magnitude = (d.coefficient + 1 / 2) * 10 ^ d.exponent := by
    simp only [Decimal.value, Nat.cast_add, Nat.cast_one] at hsum
    linarith
  have hspec := shortest_spec tie hpos hfinite
  obtain ⟨count, picked, -, hpicked, hshortest, -⟩ := exists_search tie hpos hfinite
  generalize shortest tie magnitude = found at hspec hshortest ⊢
  generalize decimalPoint magnitude - (count : Nat) = place at hpicked hshortest
  obtain ⟨hreads, -, hclosest⟩ := neighbour_spec hfinite hpicked
  obtain ⟨hvalue, -, -, hplace⟩ := Decimal.stripped_spec (coefficient_pos_of_reads_back hpos hreads) place
  rw [← hshortest] at hvalue hplace
  have hexponent : found.exponent = d.exponent := by
    rcases lt_trichotomy found.value d.value with hless | heq | hless
    · exact hspec.exponent_eq hpos hfinite h hless
    · rw [hspec.eq_of_value_eq h heq]
    · exact (h.exponent_eq hpos hfinite hspec hless).symm
  have hgrid : (0 : ℚ) < 10 ^ d.exponent := by positivity
  have hsame : place = d.exponent := by
    -- on a finer grid the double itself would be a point, and no other number would be taken
    by_contra hne
    obtain ⟨zeros, hzeros⟩ := Int.eq_ofNat_of_zero_le (show 0 ≤ d.exponent - place - 1 by omega)
    have hscale : (10 : ℚ) ^ d.exponent = 10 ^ (zeros + 1) * 10 ^ place :=
      (Decimal.pow_mul_zpow (by push_cast; omega)).symm
    have hpoint : (((10 * d.coefficient + 5) * 10 ^ zeros : Nat) : ℚ) * 10 ^ place = amount magnitude := by
      rw [hmidway, hscale, pow_succ]
      push_cast
      ring
    have hnear := hclosest ((10 * d.coefficient + 5) * 10 ^ zeros) (by rw [hpoint, nearestTo_amount hfinite])
    have hhalf : (d.coefficient : ℚ) * 10 ^ d.exponent - (d.coefficient + 1 / 2) * 10 ^ d.exponent =
        -(10 ^ d.exponent / 2) := by ring
    rw [hpoint, sub_self, abs_zero, ← hvalue, hspec.same_distance h, Decimal.value, hmidway, hhalf, abs_neg,
      abs_of_pos (half_pos hgrid)] at hnear
    linarith
  rw [hsame, neighbour_midway tie hmidway h.reads_back hreads', Option.some.injEq] at hpicked
  obtain ⟨coefficient, exponent⟩ := found
  obtain rfl : exponent = d.exponent := hexponent
  rw [hsame] at hvalue
  obtain rfl : coefficient = picked := Nat.cast_injective (mul_right_cancel₀ hgrid.ne' hvalue)
  rw [hpicked]

/-- The decimal whose digits ECMAScript writes for a magnitude: as few digits as possible, and with so many the nearest
one to the magnitude, of two such ones the one with the even coefficient. -/
structure EcmaScriptDecimal (magnitude : Nat) (d : Decimal) : Prop extends Shortest magnitude d where
  even : ∀ other : Decimal, Shortest magnitude other → other ≠ d → d.coefficient % 2 = 0

theorem EcmaScriptDecimal.unique (hpos : 0 < magnitude) (hfinite : magnitude < infinite)
    (h : EcmaScriptDecimal magnitude d) (h' : EcmaScriptDecimal magnitude d') : d = d' := by
  by_contra hne
  wlog hlt : d.value < d'.value generalizing d d'
  · have hvalue := mt (h.toShortest.eq_of_value_eq h'.toShortest) hne
    exact this h' h (Ne.symm hne) (lt_of_le_of_ne (not_lt.mp hlt) (Ne.symm hvalue))
  have heven := h.even d' h'.toShortest (Ne.symm hne)
  have heven' := h'.even d h.toShortest hne
  rw [h.toShortest.adjacent hpos hfinite h'.toShortest hlt] at heven'
  simp only at heven'
  omega

theorem ecmaScriptDecimal_shortest (hpos : 0 < magnitude) (hfinite : magnitude < infinite) :
    EcmaScriptDecimal magnitude (shortest .even magnitude) := by
  have hspec := shortest_spec .even hpos hfinite
  refine ⟨hspec, fun other hother hne => ?_⟩
  obtain ⟨below, exponent, htaken⟩ : ∃ below exponent,
      shortest .even magnitude = ⟨Tie.even.taken below, exponent⟩ := by
    rcases lt_trichotomy other.value (shortest .even magnitude).value with hlt | heq | hlt
    · exact ⟨_, _, shortest_of_lt .even hpos hfinite hother hspec hlt⟩
    · exact absurd (hother.eq_of_value_eq hspec heq) hne
    · exact ⟨_, _, shortest_of_lt .even hpos hfinite hspec hother hlt⟩
  rw [htaken]
  show (below + below % 2) % 2 = 0
  omega

/-- Taking the upper one of two shortest decimals is right unless the upper one is odd. -/
theorem ecmaScriptDecimal_up_iff (hpos : 0 < magnitude) (hfinite : magnitude < infinite)
    (hd : shortest .up magnitude = d) :
    EcmaScriptDecimal magnitude d ↔
      ¬(d.coefficient % 2 = 1 ∧ Shortest magnitude ⟨d.coefficient - 1, d.exponent⟩) := by
  have hspec := hd ▸ shortest_spec .up hpos hfinite
  constructor
  · rintro h ⟨hodd, hbelow⟩
    have heven := h.even _ hbelow fun heq => by
      have hcoefficient : d.coefficient - 1 = d.coefficient := congrArg Decimal.coefficient heq
      omega
    omega
  · refine fun hnot => ⟨hspec, fun other hother hne => ?_⟩
    have hlt : other.value < d.value := by
      refine lt_of_le_of_ne (not_lt.mp fun hless => ?_) (mt (hother.eq_of_value_eq hspec) hne)
      have hcoefficient : d.coefficient = d.coefficient + 1 :=
        congrArg Decimal.coefficient (hd.symm.trans (shortest_of_lt .up hpos hfinite hspec hother hless))
      omega
    obtain rfl := hother.adjacent hpos hfinite hspec hlt
    by_contra hodd
    exact hnot ⟨by omega, hother⟩

end StampedPrograms.Binary64
