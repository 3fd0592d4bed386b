import StampedPrograms.Value.Basic
import StampedPrograms.Json.Basic

/-!
The two ways between JSON documents and canonical values. Integers become doubles, and a double
comes back as an integer when it is one below 2^53, so a document may come back with other kinds of
numbers but a value comes back as it was.
-/

namespace StampedPrograms.Value

/-- A finite number of a document, where both zeros become the one without a sign. -/
def ofNumber (n : JsonNumber) : Value :=
  .number n.toBinary64.unsignedZero

mutual

def ofJson : Json → Value
  | .null => .null
  | .bool b => .bool b
  | .number n => ofNumber n
  | .string s => .string s
  | .array items => .list (ofItems items)
  | .object members => ofPairs (ofMembers members)

def ofItems : List Json → List Value
  | [] => []
  | item :: items => ofJson item :: ofItems items

def ofMembers : List (String × Json) → List (String × Value)
  | [] => []
  | (name, item) :: members => (name, ofJson item) :: ofMembers members

end

/-- The integers up to this one, 2^53, are all doubles. -/
def exactBound : Nat := 0x20000000000000

theorem fits64_truncate {x : Binary64} (h : x.whole < exactBound) : Fits64 x.truncate := by
  unfold Fits64 Binary64.truncate
  unfold exactBound at h
  split <;> omega

/-- An integral double below 2^53 is an integer of the document, any other finite one stays a
double. -/
def numberDocument (x : Binary64) : Json :=
  if small : x.isIntegral = true ∧ x.whole < exactBound then
    .number (.int x.truncate (fits64_truncate small.2))
  else if finite : x.IsFinite then .number (.float x finite)
  else .null

mutual

def toJson : Value → Json
  | .null => .null
  | .bool b => .bool b
  | .number x => numberDocument x
  | .string s => .string s
  | .list items => .array (itemDocuments items)
  | .map entries => .object (entryDocuments entries)

def itemDocuments : List Value → List Json
  | [] => []
  | item :: items => toJson item :: itemDocuments items

def entryDocuments : List (String × Value) → List (String × Json)
  | [] => []
  | (name, item) :: entries => (name, toJson item) :: entryDocuments entries

end

end StampedPrograms.Value
