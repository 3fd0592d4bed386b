import StampedPrograms.Entries
import StampedPrograms.Binary64.Nearest

/-!
JSON documents as hosts hand them over. A number is an integer or a floating-point number, and the
two stay apart: `1` and `1.0` are different documents. Objects list their members by ascending name.
-/

namespace StampedPrograms

/-- The integers that fit 64 bits, signed or unsigned: from -2^63 to 2^64 - 1. -/
def Fits64 (i : Int) : Prop :=
  -0x8000000000000000 ≤ i ∧ i < 0x10000000000000000

instance (i : Int) : Decidable (Fits64 i) :=
  inferInstanceAs (Decidable (_ ∧ _))

/-- An integer of at most 64 bits or a finite double. -/
inductive JsonNumber where
  | int (i : Int) (fits : Fits64 i)
  | float (x : Binary64) (finite : x.IsFinite)
deriving DecidableEq

namespace JsonNumber

/-- The nearest double. -/
def toBinary64 : JsonNumber → Binary64
  | .int i _ => .ofInt i
  | .float x _ => x

/-- Two numbers of one kind are equal when they denote the same number. -/
def equal : JsonNumber → JsonNumber → Bool
  | .int i _, .int j _ => i == j
  | .float x _, .float y _ => x.sameNumber y
  | _, _ => false

end JsonNumber

inductive Json where
  | null
  | bool (b : Bool)
  | number (n : JsonNumber)
  | string (s : String)
  | array (items : List Json)
  | object (members : List (String × Json))

namespace Json

/-- The document of an object with these members; of several under one name the last one stays. -/
def ofPairs (pairs : List (String × Json)) : Json :=
  .object (Entries.ofList pairs)

def ofStrings (items : List String) : Json :=
  .array (items.map .string)

theorem fits64_of_lt {n : Nat} (h : n < 0x10000000000000000) : Fits64 n := by
  unfold Fits64
  omega

theorem fits64_uint64 (n : UInt64) : Fits64 n.toNat :=
  fits64_of_lt n.toNat_lt

theorem fits64_uint32 (n : UInt32) : Fits64 n.toNat :=
  fits64_of_lt (Nat.lt_trans n.toNat_lt (by decide))

def ofUInt32 (n : UInt32) : Json :=
  .number (.int n.toNat (fits64_uint32 n))

def ofUInt64 (n : UInt64) : Json :=
  .number (.int n.toNat (fits64_uint64 n))

/-- The member of that name, if this is an object that has one. -/
def member? : Json → String → Option Json
  | .object members, name => members.lookup name
  | _, _ => none

/-- The member of that name unless it is null. -/
def present? (doc : Json) (name : String) : Option Json :=
  match doc.member? name with
  | some .null => none
  | found => found

def asString? : Json → Option String
  | .string s => some s
  | _ => none

def asArray? : Json → Option (List Json)
  | .array items => some items
  | _ => none

def asObject? : Json → Option (List (String × Json))
  | .object members => some members
  | _ => none

def asBinary64? : Json → Option Binary64
  | .number n => some n.toBinary64
  | _ => none

mutual

/-- Deep equality; an integer never equals a floating-point number. -/
def equal : Json → Json → Bool
  | .null, .null => true
  | .bool a, .bool b => a == b
  | .number m, .number n => m.equal n
  | .string s, .string t => s == t
  | .array xs, .array ys => equalItems xs ys
  | .object xs, .object ys => equalMembers xs ys
  | _, _ => false

def equalItems : List Json → List Json → Bool
  | [], [] => true
  | x :: xs, y :: ys => equal x y && equalItems xs ys
  | _, _ => false

def equalMembers : List (String × Json) → List (String × Json) → Bool
  | [], [] => true
  | (name, x) :: xs, (name', y) :: ys => name == name' && equal x y && equalMembers xs ys
  | _, _ => false

end

end Json

end StampedPrograms
