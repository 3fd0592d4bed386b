/-!
Doubles as a sign and a magnitude. The magnitude is the exponent field and the fraction field read
as one number, so it counts the doubles upwards from zero. A finite double is a whole number of
units of 2^-1074, given by `units`, and arithmetic on doubles is arithmetic on these numbers.
-/

namespace StampedPrograms

namespace Binary64

/-- The bit in front of the fraction, 2^52. -/
def leadingBit : Nat := 0x10000000000000

/-- The bit in front of the magnitude, 2^63. -/
def signBit : Nat := 0x8000000000000000

/-- The magnitude of the infinities; the NaNs lie above it. -/
def infinite : Nat := 0x7ff0000000000000

end Binary64

structure Binary64 where
  negative : Bool
  magnitude : Nat
  magnitude_lt : magnitude < Binary64.signBit
deriving DecidableEq

namespace Binary64

def IsFinite (x : Binary64) : Prop :=
  x.magnitude < infinite

instance (x : Binary64) : Decidable x.IsFinite :=
  inferInstanceAs (Decidable (_ < _))

theorem zero_lt : 0 < signBit := by decide

theorem infinite_lt : infinite < signBit := by decide

theorem quietNan_lt : infinite + 1 < signBit := by decide

def signedZero (negative : Bool) : Binary64 :=
  ⟨negative, 0, zero_lt⟩

def signedInfinity (negative : Bool) : Binary64 :=
  ⟨negative, infinite, infinite_lt⟩

/-- One of the NaNs; which one it is cannot be told from its text. -/
def quietNan (negative : Bool) : Binary64 :=
  ⟨negative, infinite + 1, quietNan_lt⟩

def zero : Binary64 := signedZero false

/-- The one zero without a sign stands for both. -/
def unsignedZero (x : Binary64) : Binary64 :=
  if x.magnitude = 0 then zero else x

/-- A magnitude in units of 2^-1074: the fraction, with its leading bit unless the exponent field is
zero, shifted by the exponent. -/
def units (magnitude : Nat) : Nat :=
  let exponent := magnitude / leadingBit
  let fraction := magnitude % leadingBit
  if exponent = 0 then fraction else (leadingBit + fraction) <<< (exponent - 1)

/-- The number of units in one. -/
def unitsPerOne : Nat := 1 <<< 1074

def isIntegral (x : Binary64) : Bool :=
  decide x.IsFinite && units x.magnitude % unitsPerOne == 0

/-- The part of the absolute value before the point. -/
def whole (x : Binary64) : Nat :=
  units x.magnitude / unitsPerOne

/-- The nearest integer towards zero. -/
def truncate (x : Binary64) : Int :=
  if x.negative then -x.whole else x.whole

/-- Equality of the numbers denoted: the two zeros are equal, and no NaN equals anything. -/
def sameNumber (x y : Binary64) : Bool :=
  decide (x.magnitude ≤ infinite) && decide (x.magnitude = y.magnitude) &&
    (x.negative == y.negative || x.magnitude == 0)

/-- From the interchange format. -/
def ofBits (bits : UInt64) : Binary64 where
  negative := signBit ≤ bits.toNat
  magnitude := bits.toNat % signBit
  magnitude_lt := Nat.mod_lt _ zero_lt

/-- The interchange format as a number below 2^64. -/
def bits (x : Binary64) : Nat :=
  if x.negative then signBit + x.magnitude else x.magnitude

end Binary64

end StampedPrograms
