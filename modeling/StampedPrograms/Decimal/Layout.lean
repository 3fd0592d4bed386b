/-!
The ways to write a decimal number from its digits and the place of its point.
-/

namespace StampedPrograms.Decimal

/-- Positional when `low < point ≤ high`, scientific otherwise; `fraction` asks for a `.0` after a
positional number that has no digits after the point. -/
structure Layout where
  low : Int
  high : Int
  fraction : Bool

namespace Layout

/-- The exponent with its sign, without padding. -/
def exponentText (e : Int) : List Char :=
  'e' :: (if e < 0 then '-' else '+') :: Nat.toDigits 10 e.natAbs

/-- One digit before the point, the others after it, and the exponent. -/
def scientific (digits : List Char) (point : Int) : List Char :=
  digits.take 1 ++ (if digits.length ≤ 1 then [] else '.' :: digits.drop 1) ++
    exponentText (point - 1)

/-- The number `0.digits * 10^point`. -/
def write (layout : Layout) (digits : List Char) (point : Int) : List Char :=
  if layout.low < point ∧ point ≤ layout.high then
    if (digits.length : Int) ≤ point then
      digits ++ List.replicate (point - digits.length).toNat '0' ++
        (if layout.fraction then ['.', '0'] else [])
    else if 0 < point then
      digits.take point.toNat ++ '.' :: digits.drop point.toNat
    else
      '0' :: '.' :: List.replicate (-point).toNat '0' ++ digits
  else scientific digits point

end Layout

end StampedPrograms.Decimal
