import StampedPrograms.Binary64.Nearest
import StampedPrograms.Decimal.Basic

/-!
The shortest decimal number that reads back to a given double. For 1, 2, ... 17 digits the two
neighbours of the double among the decimals with so many digits are tried; the first number of
digits with a neighbour that reads back wins, and of two such neighbours the nearer one.
-/

namespace StampedPrograms.Binary64

/-- Which neighbour is taken when the double lies midway between two that read back. -/
inductive Tie where
  | up
  | even
deriving DecidableEq

/-- The place of the point: `10^(point - 1) ≤ x < 10^point` for the value `x` of a positive
magnitude. -/
def decimalPoint (magnitude : Nat) : Int :=
  let u := units magnitude
  if unitsPerOne ≤ u then ((Nat.toDigits 10 (u / unitsPerOne)).length : Int)
  else 1 - ((Nat.toDigits 10 ((unitsPerOne - 1) / u)).length : Int)

/-- The decimal `coefficient * 10^exponent` is nearer to this magnitude than to any other. -/
def readsBack (magnitude coefficient : Nat) (exponent : Int) : Bool :=
  (ofScaled false coefficient exponent).magnitude == magnitude

/-- Of a number and the next one, the one that will do. If both will, `twice` against `den` tells which
is nearer. -/
def pick (tie : Tie) (below twice den : Nat) (belowDoes aboveDoes : Bool) : Option Nat :=
  match belowDoes, aboveDoes with
  | false, false => none
  | true, false => some below
  | false, true => some (below + 1)
  | true, true =>
      if twice < den then some below
      else if den < twice then some (below + 1)
      else match tie with
        | .up => some (below + 1)
        | .even => some (below + below % 2)

/-- The neighbour with the given last place that reads back, if there is one. -/
def neighbour? (tie : Tie) (magnitude : Nat) (exponent : Int) : Option Nat :=
  let num := units magnitude * Nat.pow 10 (-exponent).toNat
  let den := unitsPerOne * Nat.pow 10 exponent.toNat
  let below := num / den
  pick tie below (2 * (num % den)) den (readsBack magnitude below exponent)
    (readsBack magnitude (below + 1) exponent)

/-- The shortest decimal for a positive finite magnitude. The expansion to the last of its digits,
which always reads back, closes the search. -/
def shortest (tie : Tie) (magnitude : Nat) : Decimal :=
  let point := decimalPoint magnitude
  let attempt := (List.range 17).findSome? fun count =>
    let exponent := point - (count + 1 : Nat)
    (neighbour? tie magnitude exponent).map fun coefficient =>
      Decimal.stripped coefficient exponent
  attempt.getD (Decimal.stripped (units magnitude * Nat.pow 5 1074) (-1074))

end StampedPrograms.Binary64
