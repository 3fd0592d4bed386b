import StampedPrograms.Binary64.Basic

/-!
Rounding a quotient to the nearest double, a half to the even neighbour. In units of 2^-1074 the
doubles from 2^52 on are the numbers of 53 binary digits shifted by some places, so a quotient is
rounded after as many places are cut off as leave 53 digits.
-/

namespace StampedPrograms.Binary64

/-- The nearest integer to a quotient, of two equally near ones the even one. -/
def divideToEven (num den : Nat) : Nat :=
  let quotient := num / den
  let twice := 2 * (num % den)
  if twice < den then quotient
  else if den < twice then quotient + 1
  else quotient + quotient % 2

/-- The magnitude nearest to a quotient of units. -/
def nearest (num den : Nat) : Nat :=
  let places := (num / den).log2 - 52
  min (places * leadingBit + divideToEven num (den <<< places)) infinite

theorem nearest_lt (num den : Nat) : nearest num den < signBit :=
  Nat.lt_of_le_of_lt (Nat.min_le_right _ _) infinite_lt

/-- The double nearest to a quotient of units, with a sign. -/
def ofQuotient (negative : Bool) (num den : Nat) : Binary64 :=
  ⟨negative, nearest num den, nearest_lt num den⟩

def ofInt (i : Int) : Binary64 :=
  ofQuotient (i < 0) (i.natAbs * unitsPerOne) 1

def ofNat (n : Nat) : Binary64 :=
  ofQuotient false (n * unitsPerOne) 1

/-- The double nearest to `coefficient * 10^exponent` as a quotient of units. -/
def ofScaled (negative : Bool) (coefficient : Nat) (exponent : Int) : Binary64 :=
  ofQuotient negative (coefficient * Nat.pow 10 exponent.toNat * unitsPerOne)
    (Nat.pow 10 (-exponent).toNat)

/-- The double with the value of a single, given by the interchange format of singles. -/
def ofSingleBits (bits : UInt32) : Binary64 :=
  let negative : Bool := 0x80000000 ≤ bits.toNat
  let exponent := bits.toNat / 0x800000 % 0x100
  let fraction := bits.toNat % 0x800000
  if exponent = 0xff then
    if fraction = 0 then signedInfinity negative else quietNan negative
  else if exponent = 0 then ofQuotient negative (fraction <<< 925) 1
  else ofQuotient negative ((0x800000 + fraction) <<< (exponent + 924)) 1

end StampedPrograms.Binary64
