/-!
Positive decimal numbers `coefficient * 10^exponent`.
-/

namespace StampedPrograms

structure Decimal where
  coefficient : Nat
  exponent : Int
deriving DecidableEq

namespace Decimal

/-- The digits of the coefficient, the highest first. -/
def digits (d : Decimal) : List Char :=
  Nat.toDigits 10 d.coefficient

/-- The place of the point counted from the first digit: the number is `0.digits * 10^point`. -/
def point (d : Decimal) : Int :=
  d.digits.length + d.exponent

/-- The same number with no zero at the end of its coefficient. -/
def stripped (coefficient : Nat) (exponent : Int) : Decimal :=
  if 0 < coefficient ∧ coefficient % 10 = 0 then stripped (coefficient / 10) (exponent + 1)
  else ⟨coefficient, exponent⟩
termination_by coefficient
decreasing_by omega

end Decimal

end StampedPrograms
