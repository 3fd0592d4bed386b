import StampedPrograms.Proofs.Json.Numeral

/-!
Each layout of a decimal is a number text of JSON and denotes the decimal, whatever its digits and
wherever its point. No zero is written that could be left out, and wherever the digits are cut or zeros
are put in, there are as many as are asked for.
-/

namespace StampedPrograms.Decimal

open Json (Numeral Exponent)

/-- The digits a number is written from: no zero stands at either end. -/
structure IsSignificand (digits : List Char) : Prop where
  isDigits : IsDigits digits
  ne_nil : digits ≠ []
  head?_ne : digits.head? ≠ some '0'
  getLast?_ne : digits.getLast? ≠ some '0'

theorem isSignificand_digits {d : Decimal} (h : d.coefficient % 10 ≠ 0) : IsSignificand d.digits where
  isDigits := isDigits_toDigits _
  ne_nil := Nat.toDigits_ne_nil
  head?_ne := head?_toDigits fun hzero => h (by rw [hzero])
  getLast?_ne := getLast?_toDigits h

/-- The number `0.digits * 10^point`. -/
def pointedValue (digits : List Char) (point : Int) : ℚ :=
  Nat.ofDigitChars 10 digits 0 / 10 ^ digits.length * 10 ^ point

theorem pointedValue_eq (digits : List Char) (point : Int) :
    pointedValue digits point = Nat.ofDigitChars 10 digits 0 * 10 ^ (point - digits.length) := by
  rw [pointedValue, zpow_sub₀ (by norm_num), zpow_natCast]
  ring

theorem pointedValue_digits (d : Decimal) : pointedValue d.digits d.point = d.value := by
  rw [pointedValue_eq, digits, Nat.ofDigitChars_ten_toDigits, point, digits, add_sub_cancel_left]
  rfl

variable {digits : List Char} (h : IsSignificand digits) (negative : Bool)

/-- The digits with zeros after them. -/
def IsSignificand.padded (zeros : Nat) : Numeral where
  negative := negative
  whole := digits ++ List.replicate zeros '0'
  fraction := []
  exponent := none
  whole_ne_nil := by simp [h.ne_nil]
  whole_isDigits := h.isDigits.append (isDigits_replicate zeros)
  whole_zero := by
    rw [List.head?_append_of_ne_nil _ h.ne_nil]
    exact fun hzero => absurd hzero h.head?_ne
  fraction_isDigits := fun _ hc => absurd hc List.not_mem_nil

/-- The digits with the point behind the first few of them, and perhaps an exponent. -/
def IsSignificand.pointedAfter (place : Nat) (hplace : place ≠ 0) (exponent : Option Exponent) : Numeral where
  negative := negative
  whole := digits.take place
  fraction := digits.drop place
  exponent := exponent
  whole_ne_nil := by simp [h.ne_nil, hplace]
  whole_isDigits := h.isDigits.take place
  whole_zero := by
    rw [List.head?_take, if_neg hplace]
    exact fun hzero => absurd hzero h.head?_ne
  fraction_isDigits := h.isDigits.drop place

/-- The digits behind the point with zeros before them. -/
def IsSignificand.behindZeros (zeros : Nat) : Numeral where
  negative := negative
  whole := ['0']
  fraction := List.replicate zeros '0' ++ digits
  exponent := none
  whole_ne_nil := List.cons_ne_nil _ _
  whole_isDigits := isDigits_replicate 1
  whole_zero := fun _ => rfl
  fraction_isDigits := (isDigits_replicate zeros).append h.isDigits

/-- The number text of zero. -/
def zeroNumeral : Numeral where
  negative := false
  whole := ['0']
  fraction := []
  exponent := none
  whole_ne_nil := List.cons_ne_nil _ _
  whole_isDigits := isDigits_replicate 1
  whole_zero := fun _ => rfl
  fraction_isDigits := fun _ hc => absurd hc List.not_mem_nil

theorem IsSignificand.unsignedValue_padded (zeros : Nat) :
    (h.padded negative zeros).unsignedValue = pointedValue digits (digits.length + zeros) := by
  simp only [Numeral.unsignedValue, padded, pointedValue_eq, List.append_nil, Nat.ofDigitChars_append,
    Nat.ofDigitChars_replicate_zero]
  simp [mul_comm]

theorem IsSignificand.unsignedValue_pointedAfter (place : Nat) (hplace : place ≠ 0) (hle : place ≤ digits.length)
    (exponent : Option Exponent) :
    (h.pointedAfter negative place hplace exponent).unsignedValue =
      pointedValue digits (place + (exponent.map Exponent.value).getD 0) := by
  simp only [Numeral.unsignedValue, pointedAfter, pointedValue_eq, List.take_append_drop, List.length_drop]
  congr 2
  omega

theorem IsSignificand.unsignedValue_behindZeros (zeros : Nat) :
    (h.behindZeros negative zeros).unsignedValue = pointedValue digits (-zeros) := by
  have hvalue : Nat.ofDigitChars 10 ('0' :: (List.replicate zeros '0' ++ digits)) 0 =
      Nat.ofDigitChars 10 digits 0 := by
    simp [Nat.ofDigitChars_cons, Nat.ofDigitChars_append]
  simp only [Numeral.unsignedValue, behindZeros, pointedValue_eq, List.singleton_append, hvalue, List.length_append,
    List.length_replicate]
  congr 2
  simp
  omega

theorem getLast?_drop_ne {place : Nat} (hlast : digits.getLast? ≠ some '0') :
    (digits.drop place).getLast? ≠ some '0' := by
  rw [List.getLast?_drop]
  split
  · nofun
  · exact hlast

/-- What a number text has to say about the layout of some digits: it is the text that is written, it denotes the
number, it has an exponent only where the layout asks for one, and no zero stands last behind its point. -/
structure Layout.Writes (layout : Layout) (digits : List Char) (point : Int) (n : Numeral) : Prop where
  unsigned_eq : n.unsigned = layout.write digits point
  unsignedValue_eq : n.unsignedValue = pointedValue digits point
  exponent_eq : n.exponent = if layout.low < point ∧ point ≤ layout.high then none else some (.ofInt (point - 1))
  getLast?_ne : n.fraction.getLast? ≠ some '0'

include h in
theorem exists_writes (layout : Layout) (hlayout : layout.fraction = false) (point : Int) :
    ∃ n : Numeral, n.negative = negative ∧ layout.Writes digits point n := by
  have hlength : 0 < digits.length := List.length_pos_iff.mpr h.ne_nil
  by_cases hpositional : layout.low < point ∧ point ≤ layout.high
  · by_cases hlong : (digits.length : Int) ≤ point
    · refine ⟨h.padded negative (point - digits.length).toNat, rfl, ?_, ?_, (if_pos hpositional).symm, nofun⟩
      · simp [Layout.write, hpositional, hlong, hlayout, Numeral.unsigned, Numeral.tail, IsSignificand.padded, pointed,
          Exponent.optionText]
      · rw [h.unsignedValue_padded]
        congr 1
        omega
    by_cases hinside : 0 < point
    · have hrest : digits.drop point.toNat ≠ [] := by
        rw [Ne, List.drop_eq_nil_iff]
        omega
      refine ⟨h.pointedAfter negative point.toNat (by omega) none, rfl, ?_, ?_, (if_pos hpositional).symm,
        getLast?_drop_ne h.getLast?_ne⟩
      · simp [Layout.write, hpositional, hlong, hinside, Numeral.unsigned, Numeral.tail, IsSignificand.pointedAfter,
          pointed_eq hrest, Exponent.optionText]
      · rw [h.unsignedValue_pointedAfter _ _ _ (by omega)]
        congr 1
        simp
        omega
    · refine ⟨h.behindZeros negative (-point).toNat, rfl, ?_, ?_, (if_pos hpositional).symm, ?_⟩
      · simp [Layout.write, hpositional, hlong, hinside, Numeral.unsigned, Numeral.tail, IsSignificand.behindZeros,
          pointed_eq, h.ne_nil, Exponent.optionText]
      · rw [h.unsignedValue_behindZeros]
        congr 1
        omega
      · rw [IsSignificand.behindZeros, List.getLast?_append_of_ne_nil _ h.ne_nil]
        exact h.getLast?_ne
  · refine ⟨h.pointedAfter negative 1 one_ne_zero (some (.ofInt (point - 1))), rfl, ?_, ?_,
      (if_neg hpositional).symm, getLast?_drop_ne h.getLast?_ne⟩
    · rw [Layout.write, if_neg hpositional, scientific_eq, List.append_assoc]
      rfl
    · rw [h.unsignedValue_pointedAfter _ _ _ hlength, Option.map_some, Option.getD_some, Exponent.value_ofInt]
      congr 1
      omega

/-! ### The layout with checked lengths -/

/-- A text cut in two at a place that lies in it. -/
def splitAt? (cs : List Char) (place : Int) : Option (List Char × List Char) :=
  if 0 ≤ place ∧ place ≤ cs.length then some (cs.take place.toNat, cs.drop place.toNat) else none

/-- So many zeros, if that is a number of zeros. -/
def zeros? (count : Int) : Option (List Char) :=
  if 0 ≤ count then some (List.replicate count.toNat '0') else none

/-- The canonical layout, in which each cut and each number of zeros is checked. -/
def canonicalWrite? (digits : List Char) (point : Int) : Option (List Char) :=
  if digits.length ≤ point ∧ point ≤ 21 then do
    return digits ++ (← zeros? (point - digits.length))
  else if 0 < point ∧ point ≤ 21 then do
    let (whole, fraction) ← splitAt? digits point
    return whole ++ '.' :: fraction
  else if -6 < point ∧ point ≤ 0 then do
    return '0' :: '.' :: (← zeros? (-point)) ++ digits
  else do
    let (first, rest) ← splitAt? digits 1
    return first ++ (if rest.isEmpty then [] else '.' :: rest) ++ Layout.exponentText (point - 1)

theorem splitAt?_eq_some {cs : List Char} {place : Int} (hplace : 0 ≤ place ∧ place ≤ cs.length) :
    splitAt? cs place = some (cs.take place.toNat, cs.drop place.toNat) :=
  if_pos hplace

theorem zeros?_eq_some {count : Int} (hcount : 0 ≤ count) : zeros? count = some (List.replicate count.toNat '0') :=
  if_pos hcount

/-- No cut and no number of zeros is out of range. -/
theorem canonicalWrite?_eq (hne : digits ≠ []) (point : Int) :
    canonicalWrite? digits point = some (Binary64.canonicalLayout.write digits point) := by
  have hlength : 0 < digits.length := List.length_pos_iff.mpr hne
  unfold canonicalWrite? Layout.write Binary64.canonicalLayout
  dsimp only
  split
  · next hlong =>
      rw [zeros?_eq_some (by omega), if_pos (by omega), if_pos hlong.1]
      simp
  split
  · next hlong hinside =>
      rw [splitAt?_eq_some (by omega), if_pos (by omega), if_neg (by omega), if_pos hinside.1]
      rfl
  split
  · next hlong hinside hsmall =>
      rw [zeros?_eq_some (by omega), if_pos (by omega), if_neg (by omega), if_neg (by omega)]
      rfl
  · have hrest : (digits.drop 1).isEmpty = true ↔ digits.length ≤ 1 := by
      rw [List.isEmpty_iff, List.drop_eq_nil_iff]
    rw [splitAt?_eq_some (by omega), if_neg (by omega), Layout.scientific]
    simp only [Int.toNat_one, Option.bind_eq_bind, Option.bind_some, Option.pure_def, hrest]

end StampedPrograms.Decimal
