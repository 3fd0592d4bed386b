import StampedPrograms.Proofs.Binary64.TextReading
import StampedPrograms.Proofs.Decimal.Value

/-!
The number texts of JSON and the numbers they denote. A number text is given by its parts, and no two
choices of parts give the same text, so a text denotes one number at most.
-/

namespace StampedPrograms

namespace Decimal

/-- Digits end where no digit follows. -/
theorem IsDigits.append_inj {cs cs' rest rest' : List Char} (h : IsDigits cs) (h' : IsDigits cs')
    (hrest : ∀ c ∈ rest.head?, c.isDigit = false) (hrest' : ∀ c ∈ rest'.head?, c.isDigit = false)
    (heq : cs ++ rest = cs' ++ rest') : cs = cs' ∧ rest = rest' := by
  have hstop {tail : List Char} (htail : ∀ c ∈ tail.head?, c.isDigit = false) :
      tail.takeWhile Char.isDigit = [] := by
    cases tail with
    | nil => rfl
    | cons c cs => exact List.takeWhile_cons_of_neg (by rw [htail c rfl]; decide)
  have hcs : cs = cs' := by
    have htake := congrArg (List.takeWhile Char.isDigit) heq
    rwa [List.takeWhile_append_of_pos h, List.takeWhile_append_of_pos h', hstop hrest, hstop hrest',
      List.append_nil, List.append_nil] at htake
  subst hcs
  exact ⟨rfl, List.append_cancel_left heq⟩

end Decimal

namespace Json

open Decimal (IsDigits pointed)

/-- The exponent of a number text: its mark, its sign if it has one, and its digits. -/
@[ext]
structure Exponent where
  mark : Char
  sign : Option Char
  digits : List Char
  mark_eq : mark = 'e' ∨ mark = 'E'
  sign_eq : ∀ c ∈ sign, c = '+' ∨ c = '-'
  digits_ne_nil : digits ≠ []
  isDigits : IsDigits digits

/-- A number text: a minus or none, the digits before the point, of which a zero in front is the only one, the digits
after it, without which there is no point, and an exponent or none. -/
@[ext]
structure Numeral where
  negative : Bool
  whole : List Char
  fraction : List Char
  exponent : Option Exponent
  whole_ne_nil : whole ≠ []
  whole_isDigits : IsDigits whole
  whole_zero : whole.head? = some '0' → whole = ['0']
  fraction_isDigits : IsDigits fraction

namespace Exponent

def text (e : Exponent) : List Char :=
  e.mark :: (e.sign.toList ++ e.digits)

def value (e : Exponent) : Int :=
  if e.sign = some '-' then -(Nat.ofDigitChars 10 e.digits 0 : Int) else Nat.ofDigitChars 10 e.digits 0

/-- The exponent as it is written from an integer: with its sign, without zeros in front. -/
def ofInt (i : Int) : Exponent where
  mark := 'e'
  sign := some (if i < 0 then '-' else '+')
  digits := Nat.toDigits 10 i.natAbs
  mark_eq := .inl rfl
  sign_eq := by
    rintro c ⟨⟩
    split <;> simp
  digits_ne_nil := Nat.toDigits_ne_nil
  isDigits := Decimal.isDigits_toDigits _

theorem value_ofInt (i : Int) : (ofInt i).value = i := by
  have hvalue : Nat.ofDigitChars 10 (ofInt i).digits 0 = i.natAbs := Nat.ofDigitChars_ten_toDigits
  rw [value, hvalue]
  by_cases h : i < 0
  · rw [if_pos (by simp [ofInt, h])]
    omega
  · rw [if_neg (by simp [ofInt, h])]
    omega

theorem exists_digits (e : Exponent) : ∃ c cs, e.digits = c :: cs ∧ c.isDigit = true := by
  obtain ⟨c, cs, hdigits⟩ := List.exists_cons_of_ne_nil e.digits_ne_nil
  exact ⟨c, cs, hdigits, e.isDigits c (by rw [hdigits]; exact List.mem_cons_self ..)⟩

theorem text_inj {e e' : Exponent} (h : e.text = e'.text) : e = e' := by
  obtain ⟨hmark, hrest⟩ := List.cons.inj h
  obtain ⟨c, cs, hdigits, hc⟩ := e.exists_digits
  obtain ⟨c', cs', hdigits', hc'⟩ := e'.exists_digits
  have hsigns {e : Exponent} {c : Char} (hsign : e.sign = some c) : c.isDigit = false := by
    rcases e.sign_eq c hsign with rfl | rfl <;> rfl
  cases hsign : e.sign with
  | none =>
      cases hsign' : e'.sign with
      | none =>
          rw [hsign, hsign'] at hrest
          exact Exponent.ext hmark (hsign.trans hsign'.symm) hrest
      | some d =>
          rw [hsign, hsign', hdigits] at hrest
          obtain ⟨rfl, -⟩ := List.cons.inj hrest
          rw [hsigns hsign'] at hc
          cases hc
  | some d =>
      cases hsign' : e'.sign with
      | none =>
          rw [hsign, hsign', hdigits'] at hrest
          obtain ⟨rfl, -⟩ := List.cons.inj hrest
          rw [hsigns hsign] at hc'
          cases hc'
      | some d' =>
          rw [hsign, hsign'] at hrest
          obtain ⟨rfl, hdigits⟩ := List.cons.inj hrest
          exact Exponent.ext hmark (hsign.trans hsign'.symm) hdigits

/-- The text of an exponent that may be missing. -/
def optionText : Option Exponent → List Char
  | none => []
  | some e => e.text

theorem head?_optionText {exponent : Option Exponent} :
    ∀ c ∈ (optionText exponent).head?, c = 'e' ∨ c = 'E' := by
  cases exponent with
  | none => nofun
  | some e =>
      rintro c ⟨⟩
      exact e.mark_eq

theorem optionText_inj {exponent exponent' : Option Exponent} (h : optionText exponent = optionText exponent') :
    exponent = exponent' := by
  cases exponent with
  | none =>
      cases exponent' with
      | none => rfl
      | some e => cases h
  | some e =>
      cases exponent' with
      | none => cases h
      | some e' => rw [text_inj h]

end Exponent

namespace Numeral

/-- What follows the digits before the point. -/
def tail (n : Numeral) : List Char :=
  pointed n.fraction ++ Exponent.optionText n.exponent

def unsigned (n : Numeral) : List Char :=
  n.whole ++ n.tail

def text (n : Numeral) : List Char :=
  if n.negative then '-' :: n.unsigned else n.unsigned

/-- The number denoted by the text without its sign. -/
def unsignedValue (n : Numeral) : ℚ :=
  Nat.ofDigitChars 10 (n.whole ++ n.fraction) 0 * 10 ^ ((n.exponent.map Exponent.value).getD 0 - n.fraction.length)

/-- The number denoted. -/
def value (n : Numeral) : ℚ :=
  if n.negative then -n.unsignedValue else n.unsignedValue

theorem head?_tail (n : Numeral) : ∀ c ∈ n.tail.head?, c.isDigit = false := by
  intro c hc
  unfold tail pointed at hc
  split at hc
  · rcases Exponent.head?_optionText c hc with rfl | rfl <;> rfl
  · obtain rfl := Option.some.inj hc
    rfl

theorem tail_inj {n n' : Numeral} (h : n.tail = n'.tail) : n.fraction = n'.fraction ∧ n.exponent = n'.exponent := by
  have hnot {exponent : Option Exponent} {cs : List Char} : Exponent.optionText exponent ≠ '.' :: cs := by
    intro heq
    rcases Exponent.head?_optionText '.' (by rw [heq]; rfl) with h | h <;> exact absurd h (by decide)
  have hstop {exponent : Option Exponent} : ∀ c ∈ (Exponent.optionText exponent).head?, c.isDigit = false := by
    intro c hc
    rcases Exponent.head?_optionText c hc with rfl | rfl <;> rfl
  have hfraction := n.fraction_isDigits
  have hfraction' := n'.fraction_isDigits
  unfold tail at h
  cases hn : n.fraction <;> cases hn' : n'.fraction <;> rw [hn, hn'] at h
  · exact ⟨rfl, Exponent.optionText_inj h⟩
  · exact absurd h hnot
  · exact absurd h.symm hnot
  · rw [hn] at hfraction
    rw [hn'] at hfraction'
    obtain ⟨hdigits, hrest⟩ := hfraction.append_inj hfraction' hstop hstop (List.cons.inj h).2
    exact ⟨hdigits, Exponent.optionText_inj hrest⟩

theorem unsigned_inj {n n' : Numeral} (hsign : n.negative = n'.negative) (h : n.unsigned = n'.unsigned) : n = n' := by
  obtain ⟨hwhole, htail⟩ := n.whole_isDigits.append_inj n'.whole_isDigits n.head?_tail n'.head?_tail h
  obtain ⟨hfraction, hexponent⟩ := tail_inj htail
  exact Numeral.ext hsign hwhole hfraction hexponent

/-- The text of a number tells its parts. -/
theorem text_inj {n n' : Numeral} (h : n.text = n'.text) : n = n' := by
  have hstart (m : Numeral) (cs : List Char) : m.unsigned ≠ '-' :: cs := by
    intro heq
    obtain ⟨c, rest, hwhole⟩ := List.exists_cons_of_ne_nil m.whole_ne_nil
    rw [unsigned, hwhole] at heq
    have hc := m.whole_isDigits c (by rw [hwhole]; exact List.mem_cons_self ..)
    rw [(List.cons.inj heq).1] at hc
    cases hc
  unfold text at h
  cases hsign : n.negative <;> cases hsign' : n'.negative <;> rw [hsign, hsign'] at h
  · exact unsigned_inj (hsign.trans hsign'.symm) h
  · exact absurd h (hstart n _)
  · exact absurd h.symm (hstart n' _)
  · exact unsigned_inj (hsign.trans hsign'.symm) (List.cons.inj h).2

end Numeral

end Json

end StampedPrograms
