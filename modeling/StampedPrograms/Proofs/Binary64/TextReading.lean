import StampedPrograms.Binary64.Text
import StampedPrograms.Proofs.Binary64.Rounding

/-!
Reading canonical number texts back. The shortest decimal of a magnitude rounds to it, each of the
four layouts denotes the decimal it was given, and so the text of a finite double reads as that
double. Two doubles share a text only if they are equal or the two zeros.
-/

namespace StampedPrograms

namespace Decimal

/-- The exponent that a number text ends with, zero if it has none. -/
def exponentOf : List Char → Int
  | 'e' :: '-' :: digits => -(Nat.ofDigitChars 10 digits 0 : Int)
  | 'e' :: _ :: digits => Nat.ofDigitChars 10 digits 0
  | _ => 0

/-- The decimal number that a text without a sign denotes. -/
def ofText (text : List Char) : Decimal :=
  let mantissa := text.takeWhile (· != 'e')
  let fraction := (mantissa.dropWhile (· != '.')).drop 1
  ⟨Nat.ofDigitChars 10 (mantissa.takeWhile (· != '.') ++ fraction) 0,
    exponentOf (text.dropWhile (· != 'e')) - fraction.length⟩

/-- The digits after the point together with the point, which stands only before a digit. -/
def pointed : List Char → List Char
  | [] => []
  | c :: digits => '.' :: c :: digits

def IsDigits (cs : List Char) : Prop :=
  ∀ c ∈ cs, c.isDigit = true

theorem isDigits_toDigits (n : Nat) : IsDigits (Nat.toDigits 10 n) :=
  fun _ hc => Nat.isDigit_of_mem_toDigits (by decide) (by decide) hc

theorem isDigits_replicate (n : Nat) : IsDigits (List.replicate n '0') := by
  intro c hc
  rw [List.eq_of_mem_replicate hc]
  decide

theorem IsDigits.append {cs ds : List Char} (hc : IsDigits cs) (hd : IsDigits ds) :
    IsDigits (cs ++ ds) := by
  intro c hmem
  exact (List.mem_append.mp hmem).elim (hc c) (hd c)

theorem IsDigits.take {cs : List Char} (h : IsDigits cs) (n : Nat) : IsDigits (cs.take n) :=
  fun c hc => h c (List.mem_of_mem_take hc)

theorem IsDigits.drop {cs : List Char} (h : IsDigits cs) (n : Nat) : IsDigits (cs.drop n) :=
  fun c hc => h c (List.mem_of_mem_drop hc)

/-- No digit is the point or the mark of an exponent. -/
theorem IsDigits.avoids {cs : List Char} (h : IsDigits cs) {mark : Char} (hmark : mark.isDigit = false) :
    ∀ c ∈ cs, (c != mark) = true := by
  intro c hc
  rw [bne_iff_ne]
  rintro rfl
  rw [h c hc] at hmark
  cases hmark

/-- A text reads by its three parts: digits, digits after a point, and an exponent. -/
theorem ofText_parts (whole fraction tail : List Char) (hwhole : IsDigits whole)
    (hfraction : IsDigits fraction) (htail : tail = [] ∨ ∃ rest, tail = 'e' :: rest) :
    ofText (whole ++ pointed fraction ++ tail) =
      ⟨Nat.ofDigitChars 10 (whole ++ fraction) 0, exponentOf tail - fraction.length⟩ := by
  have hstop : tail.takeWhile (· != 'e') = [] ∧ tail.dropWhile (· != 'e') = tail := by
    rcases htail with rfl | ⟨rest, rfl⟩ <;> simp
  have hmantissa : ∀ c ∈ whole ++ pointed fraction, (c != 'e') = true := by
    intro c hc
    rcases List.mem_append.mp hc with hc | hc
    · exact hwhole.avoids (by decide) c hc
    · cases fraction with
      | nil => simp [pointed] at hc
      | cons d digits =>
          rcases List.mem_cons.mp hc with rfl | hc
          · decide
          · exact hfraction.avoids (by decide) c hc
  have hpoint : (whole ++ pointed fraction).takeWhile (· != '.') = whole ∧
      ((whole ++ pointed fraction).dropWhile (· != '.')).drop 1 = fraction := by
    rw [List.takeWhile_append_of_pos (hwhole.avoids (by decide)),
      List.dropWhile_append_of_pos (hwhole.avoids (by decide))]
    cases fraction <;> simp [pointed]
  simp only [ofText, List.takeWhile_append_of_pos hmantissa, List.dropWhile_append_of_pos hmantissa,
    hstop, List.append_nil, hpoint]

theorem exponentOf_nil : exponentOf [] = 0 := rfl

theorem exponentOf_exponentText (e : Int) : exponentOf (Layout.exponentText e) = e := by
  by_cases h : e < 0
  · have habs : -(e.natAbs : Int) = e := by omega
    rw [Layout.exponentText, if_pos h, exponentOf, Nat.ofDigitChars_ten_toDigits, habs]
  · have habs : (e.natAbs : Int) = e := by omega
    rw [Layout.exponentText, if_neg h, exponentOf, Nat.ofDigitChars_ten_toDigits, habs]
    intro hsign
    exact absurd hsign (by decide)

theorem pointed_eq {digits : List Char} (h : digits ≠ []) : pointed digits = '.' :: digits := by
  cases digits with
  | nil => exact absurd rfl h
  | cons => rfl

theorem scientific_eq (digits : List Char) (point : Int) :
    Layout.scientific digits point = digits.take 1 ++ pointed (digits.drop 1) ++ Layout.exponentText (point - 1) := by
  have hfraction : (if digits.length ≤ 1 then [] else '.' :: digits.drop 1) =
      pointed (digits.drop 1) := by
    split
    · next hone => rw [List.drop_eq_nil_iff.mpr hone, pointed]
    · next hmore => rw [pointed_eq (by rw [Ne, List.drop_eq_nil_iff]; exact hmore)]
  rw [Layout.scientific, hfraction]

theorem ofText_scientific {digits : List Char} (hdigits : IsDigits digits) (hne : digits ≠ [])
    (point : Int) :
    ofText (Layout.scientific digits point) =
      ⟨Nat.ofDigitChars 10 digits 0, point - digits.length⟩ := by
  have hlength : 0 < digits.length := List.length_pos_iff.mpr hne
  rw [scientific_eq,
    ofText_parts _ _ (Layout.exponentText _) (hdigits.take 1) (hdigits.drop 1) (.inr ⟨_, rfl⟩),
    List.take_append_drop, exponentOf_exponentText, List.length_drop]
  congr 1
  omega

/-- Trailing zeros before the point are the one layout that reads with other digits. -/
theorem ofText_write (layout : Layout) (hlayout : layout.fraction = false) {digits : List Char}
    (hdigits : IsDigits digits) (hne : digits ≠ []) (point : Int) :
    ofText (layout.write digits point) = ⟨Nat.ofDigitChars 10 digits 0, point - digits.length⟩ ∨
      ∃ zeros : Nat, point - digits.length = zeros ∧
        ofText (layout.write digits point) = ⟨Nat.ofDigitChars 10 digits 0 * 10 ^ zeros, 0⟩ := by
  unfold Layout.write
  split
  · split
    · next hlong =>
        refine .inr ⟨(point - digits.length).toNat, by omega, ?_⟩
        have hread := ofText_parts _ [] []
          (hdigits.append (isDigits_replicate (point - digits.length).toNat)) (by simp [IsDigits])
          (.inl rfl)
        simp only [pointed, List.append_nil, Nat.ofDigitChars_append,
          Nat.ofDigitChars_replicate_zero, exponentOf_nil, List.length_nil] at hread
        simp only [hlayout, Bool.false_eq_true, if_false, List.append_nil, hread, Nat.mul_comm]
        rfl
    · next hlong =>
        left
        split
        · next hpos =>
            have hrest : digits.drop point.toNat ≠ [] := by
              rw [Ne, List.drop_eq_nil_iff]
              omega
            have hread := ofText_parts _ _ [] (hdigits.take point.toNat)
              (hdigits.drop point.toNat) (.inl rfl)
            rw [List.append_nil, pointed_eq hrest, List.take_append_drop] at hread
            rw [hread, exponentOf_nil, List.length_drop]
            congr 1
            omega
        · next hneg =>
            have hread := ofText_parts ['0'] _ [] (isDigits_replicate 1)
              ((isDigits_replicate (-point).toNat).append hdigits) (.inl rfl)
            have hvalue : Nat.ofDigitChars 10 ('0' :: (List.replicate (-point).toNat '0' ++ digits)) 0 =
                Nat.ofDigitChars 10 digits 0 := by
              simp [Nat.ofDigitChars_cons, Nat.ofDigitChars_append]
            rw [List.append_nil, pointed_eq (by simp [hne]), List.singleton_append,
              List.singleton_append, hvalue, exponentOf_nil, List.length_append,
              List.length_replicate] at hread
            rw [List.cons_append, List.cons_append, hread]
            congr 1
            omega
  · exact .inl (ofText_scientific hdigits hne point)

/-- Trailing zeros or not, the text reads to the double nearest to what was written. -/
theorem ofScaled_ofText_write (layout : Layout) (hlayout : layout.fraction = false)
    {digits : List Char} (hdigits : IsDigits digits) (hne : digits ≠ []) (point : Int)
    (negative : Bool) :
    Binary64.ofScaled negative (ofText (layout.write digits point)).coefficient
      (ofText (layout.write digits point)).exponent =
        Binary64.ofScaled negative (Nat.ofDigitChars 10 digits 0) (point - digits.length) := by
  rcases ofText_write layout hlayout hdigits hne point with h | ⟨zeros, hzeros, h⟩
  · rw [h]
  · rw [h, hzeros, Binary64.ofScaled_mul_pow]

/-- The characters of number texts. -/
def isNumberChar (c : Char) : Bool :=
  c.isDigit || c == '-' || c == '+' || c == '.' || c == 'e'

theorem IsDigits.isNumberChar {cs : List Char} (h : IsDigits cs) :
    ∀ c ∈ cs, isNumberChar c = true := by
  intro c hc
  simp [Decimal.isNumberChar, h c hc]

theorem isNumberChar_of_mem_scientific {digits : List Char} (hdigits : IsDigits digits) {point : Int} :
    ∀ c ∈ Layout.scientific digits point, isNumberChar c = true := by
  intro c hc
  simp only [Layout.scientific, Layout.exponentText, List.mem_append, List.mem_cons] at hc
  rcases hc with (hc | hc) | rfl | rfl | hc
  · exact (hdigits.take 1).isNumberChar c hc
  · split at hc
    · cases hc
    · rcases List.mem_cons.mp hc with rfl | hc
      · decide
      · exact (hdigits.drop 1).isNumberChar c hc
  · decide
  · split <;> decide
  · exact (isDigits_toDigits _).isNumberChar c hc

theorem isNumberChar_of_mem_write {layout : Layout} {digits : List Char} (hdigits : IsDigits digits)
    {point : Int} : ∀ c ∈ layout.write digits point, isNumberChar c = true := by
  intro c hc
  unfold Layout.write at hc
  split at hc
  · split at hc
    · simp only [List.mem_append] at hc
      rcases hc with (hc | hc) | hc
      · exact hdigits.isNumberChar c hc
      · exact (isDigits_replicate _).isNumberChar c hc
      · split at hc
        · simp only [List.mem_cons, List.not_mem_nil, or_false] at hc
          rcases hc with rfl | rfl <;> decide
        · cases hc
    split at hc
    · simp only [List.mem_append, List.mem_cons] at hc
      rcases hc with hc | rfl | hc
      · exact (hdigits.take _).isNumberChar c hc
      · decide
      · exact (hdigits.drop _).isNumberChar c hc
    · simp only [List.mem_cons, List.cons_append, List.mem_append] at hc
      rcases hc with rfl | rfl | hc | hc
      · decide
      · decide
      · exact (isDigits_replicate _).isNumberChar c hc
      · exact hdigits.isNumberChar c hc
  · exact isNumberChar_of_mem_scientific hdigits c hc

theorem write_starts (layout : Layout) {digits : List Char} (hdigits : IsDigits digits)
    (hne : digits ≠ []) (point : Int) :
    ∃ c rest, layout.write digits point = c :: rest ∧ c.isDigit = true := by
  cases digits with
  | nil => exact absurd rfl hne
  | cons d ds =>
      have hd : d.isDigit = true := hdigits d (List.mem_cons_self ..)
      unfold Layout.write Layout.scientific
      split
      · split
        · exact ⟨d, _, rfl, hd⟩
        split
        · next hpos =>
            obtain ⟨n, hn⟩ : ∃ n, point.toNat = n + 1 := ⟨point.toNat - 1, by omega⟩
            rw [hn, List.take_succ_cons]
            exact ⟨d, _, rfl, hd⟩
        · exact ⟨'0', _, rfl, by decide⟩
      · exact ⟨d, _, rfl, hd⟩

end Decimal

namespace Binary64

/-- What is picked will do, and if the other one will do too it is no nearer. -/
theorem pick_spec {tie : Tie} {below twice den picked : Nat} {belowDoes aboveDoes : Bool}
    (h : pick tie below twice den belowDoes aboveDoes = some picked) :
    picked = below ∧ belowDoes = true ∧ (aboveDoes = true → twice ≤ den) ∨
      picked = below + 1 ∧ aboveDoes = true ∧ (belowDoes = true → den ≤ twice) := by
  unfold pick at h
  split at h
  · cases h
  · exact .inl ⟨(Option.some.inj h).symm, rfl, nofun⟩
  · exact .inr ⟨(Option.some.inj h).symm, rfl, nofun⟩
  split at h
  · next hbelow => exact .inl ⟨(Option.some.inj h).symm, rfl, fun _ => Nat.le_of_lt hbelow⟩
  split at h
  · next habove => exact .inr ⟨(Option.some.inj h).symm, rfl, fun _ => Nat.le_of_lt habove⟩
  next hnot hnot' =>
  cases tie with
  | up => exact .inr ⟨(Option.some.inj h).symm, rfl, fun _ => Nat.not_lt.mp hnot⟩
  | even =>
      rcases Nat.mod_two_eq_zero_or_one below with heven | hodd
      · rw [heven] at h
        exact .inl ⟨(Option.some.inj h).symm, rfl, fun _ => Nat.not_lt.mp hnot'⟩
      · rw [hodd] at h
        exact .inr ⟨(Option.some.inj h).symm, rfl, fun _ => Nat.not_lt.mp hnot⟩

theorem magnitude_of_neighbour {tie : Tie} {magnitude coefficient : Nat} {exponent : Int}
    (h : neighbour? tie magnitude exponent = some coefficient) :
    (ofScaled false coefficient exponent).magnitude = magnitude := by
  rcases pick_spec h with ⟨rfl, hdoes, -⟩ | ⟨rfl, hdoes, -⟩ <;> exact beq_iff_eq.mp hdoes

/-- An expansion with as many places after the point as the unit has is exact. -/
theorem magnitude_ofScaled_expansion {magnitude : Nat} (h : magnitude < infinite) (places : Nat)
    (hplaces : unitsPerOne = 2 ^ places) (exponent : Int) (hexponent : exponent = -places) :
    (ofScaled false (units magnitude * Nat.pow 5 places) exponent).magnitude = magnitude := by
  have hnum : exponent.toNat = 0 := by omega
  have hden : (-exponent).toNat = places := by omega
  have hten : (10 : Nat) ^ places = 5 ^ places * 2 ^ places := Nat.mul_pow 5 2 places
  have hpos : 0 < 10 ^ places := Nat.pow_pos (by decide)
  have hmul := nearest_mul hpos (units magnitude) 1
  rw [Nat.mul_one] at hmul
  simp only [ofScaled, ofQuotient, hnum, hden, hplaces, Nat.pow_eq, Nat.pow_zero, Nat.mul_one]
  rw [Nat.mul_assoc, ← hten, Nat.mul_comm, hmul, nearest_units h]

/-- The search for the fewest digits ends at a decimal that rounds to the magnitude. -/
theorem magnitude_shortest (tie : Tie) {magnitude : Nat} (h : magnitude < infinite) :
    (ofScaled false (shortest tie magnitude).coefficient
      (shortest tie magnitude).exponent).magnitude = magnitude := by
  rw [shortest]
  dsimp only
  cases hattempt : (List.range 17).findSome? fun count =>
      (neighbour? tie magnitude (decimalPoint magnitude - (count + 1 : Nat))).map fun coefficient =>
        Decimal.stripped coefficient (decimalPoint magnitude - (count + 1 : Nat)) with
  | some d =>
      obtain ⟨count, -, hd⟩ := List.exists_of_findSome?_eq_some hattempt
      obtain ⟨coefficient, hneighbour, rfl⟩ := Option.map_eq_some_iff.mp hd
      rw [Option.getD_some, ofScaled_stripped]
      exact magnitude_of_neighbour hneighbour
  | none =>
      rw [Option.getD_none, ofScaled_stripped]
      -- as in `unitsPerOne_eq`, the power is not to be computed
      have hunits := unitsPerOne_eq
      have hexponent : (-1074 : Int) = -(1074 : Nat) := rfl
      generalize 1074 = places at hunits hexponent ⊢
      exact magnitude_ofScaled_expansion h places hunits _ hexponent

theorem ofScaled_shortest (tie : Tie) {x : Binary64} (h : x.IsFinite) :
    ofScaled x.negative (shortest tie x.magnitude).coefficient
      (shortest tie x.magnitude).exponent = x := by
  have hmagnitude := magnitude_shortest tie h
  obtain ⟨negative, magnitude, hlt⟩ := x
  simp only [ofScaled, ofQuotient] at hmagnitude ⊢
  simp only [hmagnitude]

theorem ofScaled_zero (negative : Bool) (exponent : Int) :
    ofScaled negative 0 exponent = signedZero negative := by
  simp [ofScaled, ofQuotient, signedZero, nearest, divideToEven]

/-- The double nearest to what a text denotes, a minus in front of it or not. -/
def ofText : List Char → Binary64
  | '-' :: text => ofScaled true (Decimal.ofText text).coefficient (Decimal.ofText text).exponent
  | text => ofScaled false (Decimal.ofText text).coefficient (Decimal.ofText text).exponent

theorem digits_spec (d : Decimal) :
    Decimal.IsDigits d.digits ∧ d.digits ≠ [] ∧ Nat.ofDigitChars 10 d.digits 0 = d.coefficient ∧
      d.point - d.digits.length = d.exponent :=
  ⟨Decimal.isDigits_toDigits _, Nat.toDigits_ne_nil, Nat.ofDigitChars_ten_toDigits,
    by rw [Decimal.point]; omega⟩

/-- Canonical text reads back as the double it was written for, without the sign of a zero. -/
theorem ofText_canonicalDigits {x : Binary64} (h : x.IsFinite) :
    ofText x.canonicalDigits = x.unsignedZero := by
  unfold canonicalDigits unsignedZero
  split
  · exact ofScaled_zero false 0
  · obtain ⟨hdigits, hne, hvalue, hpoint⟩ := digits_spec (shortest .up x.magnitude)
    have hread := Decimal.ofScaled_ofText_write canonicalLayout rfl hdigits hne
      (shortest .up x.magnitude).point x.negative
    rw [hpoint, hvalue, ofScaled_shortest .up h] at hread
    dsimp only
    split
    · next hsign => rwa [hsign] at hread
    · next hsign =>
        obtain ⟨c, rest, htext, hc⟩ :=
          Decimal.write_starts canonicalLayout hdigits hne (shortest .up x.magnitude).point
        rw [Bool.not_eq_true] at hsign
        rw [hsign] at hread
        rw [htext] at hread ⊢
        rw [ofText]
        · exact hread
        · rintro text heq
          injection heq with heq
          subst heq
          cases hc

theorem canonicalText_eq {x : Binary64} (h : x.IsFinite) : x.canonicalText = x.canonicalDigits := by
  rw [canonicalText, if_pos h]

theorem isNumberChar_of_mem_canonicalDigits (x : Binary64) :
    ∀ c ∈ x.canonicalDigits, Decimal.isNumberChar c = true := by
  intro c hc
  obtain ⟨hdigits, -⟩ := digits_spec (shortest .up x.magnitude)
  unfold canonicalDigits at hc
  dsimp only at hc
  split at hc
  · rw [List.mem_singleton.mp hc]
    decide
  split at hc
  · rcases List.mem_cons.mp hc with rfl | hc
    · decide
    · exact Decimal.isNumberChar_of_mem_write hdigits c hc
  · exact Decimal.isNumberChar_of_mem_write hdigits c hc

theorem canonicalDigits_ne_nil (x : Binary64) : x.canonicalDigits ≠ [] := by
  obtain ⟨hdigits, hne, -⟩ := digits_spec (shortest .up x.magnitude)
  obtain ⟨c, rest, htext, -⟩ :=
    Decimal.write_starts canonicalLayout hdigits hne (shortest .up x.magnitude).point
  unfold canonicalDigits
  dsimp only
  rw [htext]
  split
  · simp
  · split <;> simp

end Binary64

end StampedPrograms
