import StampedPrograms.Binary64.Shortest
import StampedPrograms.Decimal.Layout

/-!
The two texts of a double: the canonical one, in which an integral double reads as an integer, and
the one of JSON documents, which keeps floating-point numbers apart from integers.
-/

namespace StampedPrograms.Binary64

/-- Canonical text is positional from 1e-6 up to 21 digits before the point. -/
def canonicalLayout : Decimal.Layout := ⟨-6, 21, false⟩

/-- JSON text is positional from 1e-5 up to 16 digits before the point and always has a fraction. -/
def jsonLayout : Decimal.Layout := ⟨-5, 16, true⟩

/-- The canonical text of a finite double: neither zero has a sign. -/
def canonicalDigits (x : Binary64) : List Char :=
  if x.magnitude = 0 then ['0']
  else
    let d := shortest .up x.magnitude
    let text := canonicalLayout.write d.digits d.point
    if x.negative then '-' :: text else text

/-- The canonical text, with names for what no JSON number denotes. -/
def canonicalText (x : Binary64) : List Char :=
  if x.IsFinite then x.canonicalDigits
  else if x.magnitude ≠ infinite then ['N', 'a', 'N']
  else if x.negative then ['-', 'i', 'n', 'f'] else ['i', 'n', 'f']

/-- The text of a finite double in a JSON document. -/
def jsonText (x : Binary64) : List Char :=
  let text :=
    if x.magnitude = 0 then ['0', '.', '0']
    else
      let d := shortest .even x.magnitude
      jsonLayout.write d.digits d.point
  if x.negative then '-' :: text else text

end StampedPrograms.Binary64
