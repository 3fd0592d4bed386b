import StampedPrograms.Proofs.Binary64.Ties
import StampedPrograms.Proofs.Decimal.Layout
import StampedPrograms.Proofs.Json.Equality

/-!
The canonical text of a finite double is a number text of JSON. It denotes the shortest decimal of the
double, it has an exponent only outside of the positional range, and no zero stands in it that could be
left out. Two doubles have the same text only if they are the same number. It denotes the decimal of
ECMAScript unless the double lies midway between two shortest decimals of which the upper one is odd.
-/

namespace StampedPrograms.Binary64

open Decimal (IsSignificand pointedValue canonicalWrite?)
open Json (Numeral Exponent)

/-- What the number text of `0.digits * 10^point` with a sign has to be. That no zero stands before the other digits
in front of the point is true of every number text. -/
structure Rendered (negative : Bool) (digits : List Char) (point : Int) (n : Numeral) : Prop where
  value_eq : n.value = if negative then -pointedValue digits point else pointedValue digits point
  positional_iff : n.exponent = none ↔ -6 < point ∧ point ≤ 21
  exponent_value : ∀ e ∈ n.exponent, e.value = point - 1
  exponent_sign : ∀ e ∈ n.exponent, e.sign = some (if point - 1 < 0 then '-' else '+')
  exponent_zero : ∀ e ∈ n.exponent, e.digits.head? = some '0' → e.digits = ['0']
  getLast?_ne : n.fraction.getLast? ≠ some '0'

theorem rendered_of_writes {negative : Bool} {digits : List Char} {point : Int} {n : Numeral}
    (hnegative : n.negative = negative) (h : canonicalLayout.Writes digits point n) :
    Rendered negative digits point n := by
  have hexponent : n.exponent = if -6 < point ∧ point ≤ 21 then none else some (.ofInt (point - 1)) :=
    h.exponent_eq
  have hmem {e : Exponent} (he : e ∈ n.exponent) : e = .ofInt (point - 1) := by
    rw [hexponent] at he
    split at he
    · cases he
    · exact (Option.some.inj he).symm
  refine ⟨?_, ?_, fun e he => ?_, fun e he => ?_, fun e he => ?_, h.getLast?_ne⟩
  · rw [Numeral.value, hnegative, h.unsignedValue_eq]
  · rw [hexponent]
    split
    · next hrange => exact iff_of_true rfl hrange
    · next hrange => exact iff_of_false nofun hrange
  · rw [hmem he, Exponent.value_ofInt]
  · rw [hmem he]
    rfl
  · rw [hmem he]
    intro hzero
    by_cases habs : (point - 1).natAbs = 0
    · simp [Exponent.ofInt, habs]
    · exact absurd hzero (Decimal.head?_toDigits habs)

/-- The digits of a double other than zero, and the text that is written from them. -/
theorem exists_rendered {x : Binary64} (h : x.IsFinite) (hx : x.magnitude ≠ 0) :
    ∃ n : Numeral, n.text = x.canonicalText ∧
      Rendered x.negative (shortest .up x.magnitude).digits (shortest .up x.magnitude).point n := by
  have hspec := shortest_spec .up (Nat.pos_of_ne_zero hx) h
  obtain ⟨n, hnegative, hwrites⟩ := Decimal.exists_writes (Decimal.isSignificand_digits hspec.stripped) x.negative
    canonicalLayout rfl (shortest .up x.magnitude).point
  refine ⟨n, ?_, rendered_of_writes hnegative hwrites⟩
  rw [canonicalText_eq h, canonicalDigits, if_neg hx, Numeral.text, hnegative, hwrites.unsigned_eq]

theorem canonicalDigits_zero {x : Binary64} (hx : x.magnitude = 0) : x.canonicalDigits = ['0'] := by
  rw [canonicalDigits, if_pos hx]

theorem canonicalText_zero {x : Binary64} (hx : x.magnitude = 0) : x.canonicalText = ['0'] := by
  have hfinite : x.IsFinite := by
    rw [IsFinite, hx]
    decide
  rw [canonicalText_eq hfinite, canonicalDigits_zero hx]

theorem canonicalDigits_unsignedZero (x : Binary64) : x.unsignedZero.canonicalDigits = x.canonicalDigits := by
  unfold unsignedZero
  split
  · next hzero => rw [canonicalDigits_zero hzero, canonicalDigits_zero (show zero.magnitude = 0 from rfl)]
  · rfl

/-- Doubles have the same text just if they are the same number. -/
theorem canonicalText_eq_iff {x y : Binary64} (hx : x.IsFinite) (hy : y.IsFinite) :
    x.canonicalText = y.canonicalText ↔ x.sameNumber y = true := by
  rw [canonicalText_eq hx, canonicalText_eq hy]
  constructor
  · intro htext
    have hunsigned : x.unsignedZero = y.unsignedZero := by
      rw [← ofText_canonicalDigits hx, ← ofText_canonicalDigits hy, htext]
    rw [sameNumber_of_unsignedZero_eq hunsigned, hy.sameNumber_self]
  · intro hsame
    rw [← x.canonicalDigits_unsignedZero, unsignedZero_eq_of_sameNumber hsame, y.canonicalDigits_unsignedZero]

/-- Number texts with a sign denote the same number just if their decimals are the same. -/
theorem signed_value_inj {d d' : Decimal} (h : d.coefficient % 10 ≠ 0) (h' : d'.coefficient % 10 ≠ 0)
    (negative : Bool) :
    (if negative then -d.value else d.value) = (if negative then -d'.value else d'.value) ↔ d = d' := by
  refine ⟨fun heq => Decimal.eq_of_value_eq h h' ?_, fun heq => by rw [heq]⟩
  cases negative with
  | false => exact heq
  | true => exact neg_injective heq

/-- The number that the canonical text denotes is the one of ECMAScript unless the text takes an odd decimal that is no
nearer than the one below it. -/
theorem exists_ecmaScriptDecimal {x : Binary64} (h : x.IsFinite) (hx : x.magnitude ≠ 0) {d : Decimal}
    (hd : shortest .up x.magnitude = d) :
    ∃ e, (∀ other, EcmaScriptDecimal x.magnitude other ↔ other = e) ∧
      ∀ n : Numeral, n.text = x.canonicalText →
        (n.value = (if x.negative then -e.value else e.value) ↔
          ¬(d.coefficient % 2 = 1 ∧ Shortest x.magnitude ⟨d.coefficient - 1, d.exponent⟩)) := by
  have hpos := Nat.pos_of_ne_zero hx
  have hspec := hd ▸ shortest_spec .up hpos h
  obtain ⟨e, he⟩ : ∃ e, EcmaScriptDecimal x.magnitude e := ⟨_, ecmaScriptDecimal_shortest hpos h⟩
  have hunique (other : Decimal) : EcmaScriptDecimal x.magnitude other ↔ other = e := by
    refine ⟨fun hother => hother.unique hpos h he, ?_⟩
    rintro rfl
    exact he
  obtain ⟨n, htext, hrendered⟩ := exists_rendered h hx
  rw [hd] at hrendered
  refine ⟨e, hunique, fun n' htext' => ?_⟩
  obtain rfl := Numeral.text_inj (htext'.trans htext.symm)
  rw [← ecmaScriptDecimal_up_iff hpos h hd, hunique, hrendered.value_eq, Decimal.pointedValue_digits]
  exact signed_value_inj hspec.stripped he.stripped x.negative

/-- The canonical text of a finite double is a number text, and `0` for both zeros. Any other one is written without
a length out of range from the digits of the shortest decimal, and has one reading as a number text, by which it
denotes that decimal. This is the decimal of ECMAScript unless it is odd and the decimal below it is a shortest one as
well. Finite doubles share a text just if they are the same number. That no cut and no number of zeros is out of range
holds for all digits and all places of the point. -/
theorem canonicalText_numeral {x : Binary64} (hx : x.IsFinite) :
    (∃ n : Numeral, n.text = x.canonicalText) ∧
    (x.magnitude = 0 → x.canonicalText = ['0']) ∧
    (x.magnitude ≠ 0 →
      let d := shortest .up x.magnitude
      Shortest x.magnitude d ∧ pointedValue d.digits d.point = d.value ∧
      (∃ text, canonicalWrite? d.digits d.point = some text ∧
        x.canonicalText = if x.negative then '-' :: text else text) ∧
      (∀ n : Numeral, n.text = x.canonicalText → Rendered x.negative d.digits d.point n) ∧
      ∃ e, (∀ other, EcmaScriptDecimal x.magnitude other ↔ other = e) ∧
        ∀ n : Numeral, n.text = x.canonicalText →
          (n.value = (if x.negative then -e.value else e.value) ↔
            ¬(d.coefficient % 2 = 1 ∧ Shortest x.magnitude ⟨d.coefficient - 1, d.exponent⟩))) ∧
    (∀ y : Binary64, y.IsFinite → (x.canonicalText = y.canonicalText ↔ x.sameNumber y = true)) ∧
    ∀ digits : List Char, digits ≠ [] → ∀ point : Int,
      canonicalWrite? digits point = some (canonicalLayout.write digits point) := by
  refine ⟨?_, canonicalText_zero, fun hne => ?_, fun y hy => canonicalText_eq_iff hx hy,
    fun digits hdigits point => Decimal.canonicalWrite?_eq hdigits point⟩
  · by_cases hzero : x.magnitude = 0
    · exact ⟨Decimal.zeroNumeral, (canonicalText_zero hzero).symm⟩
    · obtain ⟨n, htext, -⟩ := exists_rendered hx hzero
      exact ⟨n, htext⟩
  · obtain ⟨n, htext, hrendered⟩ := exists_rendered hx hne
    refine ⟨shortest_spec .up (Nat.pos_of_ne_zero hne) hx, Decimal.pointedValue_digits _,
      ⟨_, Decimal.canonicalWrite?_eq Nat.toDigits_ne_nil _, ?_⟩, fun n' htext' => ?_,
      exists_ecmaScriptDecimal hx hne rfl⟩
    · rw [canonicalText_eq hx, canonicalDigits, if_neg hne]
      rfl
    · rwa [Numeral.text_inj (htext'.trans htext.symm)]

/-- A small number, whose exponent has a sign, the zero with a sign, and a number midway between two shortest decimals,
of which the text has the upper one. -/
theorem canonicalText_numeral_midway :
    let x := ofBits 0xBE15798EE2308C3A
    let y := signedZero true
    let z := ofBits 0x4310000000000001
    (x.IsFinite ∧ x.magnitude ≠ 0 ∧ Shortest x.magnitude ⟨125, -11⟩ ∧
      ∃ n : Numeral, n.text = "-1.25e-9".toList ∧ n.text = x.canonicalText ∧ n.value = -125 / 10 ^ 11 ∧
        n.exponent ≠ none ∧ ∀ e ∈ n.exponent, e.value = -9 ∧ e.sign = some '-') ∧
      (y.IsFinite ∧ y.magnitude = 0 ∧ y.canonicalText = ['0'] ∧ y.canonicalText = zero.canonicalText) ∧
      (z.IsFinite ∧ z.canonicalText = "1125899906842624.3".toList ∧
        EcmaScriptDecimal z.magnitude ⟨11258999068426242, -1⟩ ∧
        ∃ n : Numeral, n.text = z.canonicalText ∧ n.value = 11258999068426243 / 10 ∧
          n.value ≠ (⟨11258999068426242, -1⟩ : Decimal).value) ∧
      ['1', '2'] ≠ [] ∧ canonicalWrite? ['1', '2'] 2 = some ['1', '2'] := by
  intro x y z
  have hx : x.IsFinite := by decide
  have hx' : x.magnitude ≠ 0 := by decide
  have hz : z.IsFinite := by decide
  have hz' : z.magnitude ≠ 0 := by decide
  have hshortest : shortest .up x.magnitude = ⟨125, -11⟩ := by decide +kernel
  have htext : x.canonicalText = "-1.25e-9".toList := by decide +kernel
  have hup : shortest .up z.magnitude = ⟨11258999068426243, -1⟩ := by decide +kernel
  have heven : shortest .even z.magnitude = ⟨11258999068426242, -1⟩ := by decide +kernel
  obtain ⟨⟨n, hn⟩, -, hdigits, -, hwrite⟩ := canonicalText_numeral hx
  obtain ⟨hspec, -, -, hrendered, -⟩ := hdigits hx'
  have hr := hrendered n hn
  rw [hshortest] at hspec hr
  obtain ⟨-, hzero, -, hsame, -⟩ := canonicalText_numeral (show y.IsFinite by decide)
  obtain ⟨⟨m, hm⟩, -, hmidway, -⟩ := canonicalText_numeral hz
  obtain ⟨-, -, -, hrendered', e, hunique, hagrees⟩ := hmidway hz'
  have hecma : EcmaScriptDecimal z.magnitude ⟨11258999068426242, -1⟩ :=
    heven ▸ ecmaScriptDecimal_shortest (Nat.pos_of_ne_zero hz') hz
  have hvalue := (hrendered' m hm).value_eq
  have hmisses := hagrees m hm
  rw [← (hunique _).mp hecma, hup, if_neg (by decide)] at hmisses
  rw [hup, if_neg (by decide), Decimal.pointedValue_digits, Decimal.value] at hvalue
  refine ⟨⟨hx, hx', hspec, n, hn.trans htext, hn, ?_, ?_, fun exponent hexponent => ?_⟩,
    ⟨by decide, rfl, hzero rfl, (hsame zero (by decide)).mpr (by decide)⟩,
    ⟨hz, by decide +kernel, hecma, m, hm, hvalue.trans (by norm_num), mt hmisses.mp fun hnot => ?_⟩,
    by decide, hwrite _ (by decide) 2⟩
  · rw [hr.value_eq, if_pos (by decide), Decimal.pointedValue_digits, Decimal.value]
    norm_num
  · rw [Ne, hr.positional_iff]
    decide
  · exact ⟨hr.exponent_value exponent hexponent, hr.exponent_sign exponent hexponent⟩
  · exact hnot ⟨rfl, hecma.toShortest⟩

end StampedPrograms.Binary64
