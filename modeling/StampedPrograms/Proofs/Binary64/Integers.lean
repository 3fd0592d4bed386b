import StampedPrograms.Proofs.Binary64.Rounding

/-!
Integers of at most 53 binary digits are doubles: the nearest double is the integer itself, and
truncating it gives the integer back.
-/

namespace StampedPrograms.Binary64

/-- A magnitude with a leading bit is its 53 digits, shifted by the exponent. -/
theorem units_normal {fraction : Nat} (h : fraction < leadingBit) (exponent : Nat) :
    units ((exponent + 1) * leadingBit + fraction) = (leadingBit + fraction) <<< exponent := by
  have hdiv : ((exponent + 1) * leadingBit + fraction) / leadingBit = exponent + 1 := by
    rw [Nat.mul_comm, Nat.mul_add_div (by decide), Nat.div_eq_of_lt h, Nat.add_zero]
  have hmod : ((exponent + 1) * leadingBit + fraction) % leadingBit = fraction := by
    rw [Nat.mul_comm, Nat.mul_add_mod, Nat.mod_eq_of_lt h]
  rw [units, hdiv, hmod]
  rfl

theorem exists_units {n : Nat} (h : n < 2 * leadingBit) :
    ∃ magnitude, magnitude < infinite ∧ units magnitude = n * unitsPerOne := by
  by_cases hzero : n = 0
  · exact ⟨0, by decide, by rw [hzero, Nat.zero_mul]; rfl⟩
  have hlog : n.log2 < 53 := (Nat.log2_lt hzero).mpr (by rw [leadingBit_eq] at h; omega)
  -- The digits of `n` fill 53 places after this shift.
  have hlow : 2 ^ n.log2 ≤ n := Nat.log2_self_le hzero
  have hhigh : n < 2 ^ (n.log2 + 1) := Nat.lt_log2_self
  have hplaces : 2 ^ n.log2 * 2 ^ (52 - n.log2) = leadingBit := by
    rw [← Nat.pow_add, leadingBit_eq]
    congr 1
    omega
  have hleast : leadingBit ≤ n * 2 ^ (52 - n.log2) := by
    rw [← hplaces]
    exact Nat.mul_le_mul_right _ hlow
  have hmost : n * 2 ^ (52 - n.log2) < 2 * leadingBit :=
    calc n * 2 ^ (52 - n.log2)
        < 2 ^ (n.log2 + 1) * 2 ^ (52 - n.log2) :=
          Nat.mul_lt_mul_of_pos_right hhigh (Nat.two_pow_pos _)
      _ = 2 * leadingBit := by rw [Nat.pow_succ, Nat.mul_right_comm, hplaces, Nat.mul_comm]
  have hfraction : n * 2 ^ (52 - n.log2) - leadingBit < leadingBit := by omega
  refine ⟨(1022 + n.log2 + 1) * leadingBit + (n * 2 ^ (52 - n.log2) - leadingBit), ?_, ?_⟩
  · simp only [leadingBit, infinite] at hfraction ⊢
    omega
  · rw [units_normal hfraction, Nat.add_sub_cancel' hleast, Nat.shiftLeft_eq, Nat.mul_assoc,
      ← Nat.pow_add, unitsPerOne_eq]
    congr 2
    omega

theorem unitsPerOne_pos : 0 < unitsPerOne := by
  unfold unitsPerOne
  generalize 1074 = places
  rw [Nat.one_shiftLeft]
  exact Nat.two_pow_pos places

theorem magnitude_ofInt_eq_zero {i : Int} : (ofInt i).magnitude = 0 ↔ i = 0 := by
  constructor
  · intro h
    have hunits : i.natAbs * unitsPerOne = 0 := nearest_one_eq_zero h
    rcases Nat.mul_eq_zero.mp hunits with hi | hone
    · exact Int.natAbs_eq_zero.mp hi
    · exact absurd hone (Nat.ne_of_gt unitsPerOne_pos)
  · rintro rfl
    decide +kernel

theorem units_ofInt {i : Int} (h : i.natAbs < 2 * leadingBit) :
    units (ofInt i).magnitude = i.natAbs * unitsPerOne := by
  obtain ⟨magnitude, hfinite, hunits⟩ := exists_units h
  show units (nearest (i.natAbs * unitsPerOne) 1) = i.natAbs * unitsPerOne
  rw [← hunits, nearest_units hfinite]

theorem whole_ofInt {i : Int} (h : i.natAbs < 2 * leadingBit) : (ofInt i).whole = i.natAbs := by
  rw [whole, units_ofInt h, Nat.mul_div_cancel _ unitsPerOne_pos]

theorem truncate_unsignedZero (x : Binary64) : x.unsignedZero.truncate = x.truncate := by
  unfold unsignedZero
  split
  · next hzero =>
      have hwhole : x.whole = 0 := by
        rw [whole, hzero]
        exact Nat.zero_div _
      rw [truncate, truncate, hwhole]
      cases x.negative <;> rfl
  · rfl

theorem isIntegral_unsignedZero (x : Binary64) : x.unsignedZero.isIntegral = x.isIntegral := by
  unfold unsignedZero
  split
  · next hzero =>
      obtain ⟨negative, magnitude, hlt⟩ := x
      cases hzero
      rfl
  · rfl

theorem truncate_ofInt {i : Int} (h : i.natAbs < 2 * leadingBit) : (ofInt i).truncate = i := by
  have hnegative : (ofInt i).negative = decide (i < 0) := rfl
  rw [truncate, whole_ofInt h, hnegative]
  by_cases hi : i < 0
  · rw [decide_eq_true hi, if_pos rfl]
    omega
  · rw [decide_eq_false hi, if_neg Bool.false_ne_true]
    omega

end StampedPrograms.Binary64
