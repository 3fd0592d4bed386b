import StampedPrograms.Digest
import StampedPrograms.Value.Encoding

/-!
The first field in which two records differ. A field that one record lacks reads as null there,
except that a null which only the second record has still counts as a difference.
-/

namespace StampedPrograms

/-- A field with its canonical text in the first and in the second record. -/
structure Difference where
  field : String
  expected : String
  actual : String
deriving DecidableEq

namespace Value

/-- The first entry of the first record that the second has otherwise. -/
def differingField? (actual : List (String × Value)) : List (String × Value) → Option Difference
  | [] => none
  | (field, want) :: rest =>
      let got := (actual.lookup field).getD .null
      if got = want then differingField? actual rest else some ⟨field, want.text, got.text⟩

/-- The first entry of the second record whose field the first one lacks. -/
def extraField? (expected : List (String × Value)) : List (String × Value) → Option Difference
  | [] => none
  | (field, got) :: rest =>
      if (expected.lookup field).isNone then some ⟨field, Value.null.text, got.text⟩
      else extraField? expected rest

/-- Only maps have fields that can differ. -/
def difference? : Value → Value → Option Difference
  | .map expected, .map actual =>
      (differingField? actual expected).or (extraField? expected actual)
  | _, _ => none

end Value

/-- The first field in which two components of one kind differ. -/
def difference? {α : Type} [Documented α] (expected actual : α) : Option Difference :=
  (canonicalValue expected).difference? (canonicalValue actual)

end StampedPrograms
