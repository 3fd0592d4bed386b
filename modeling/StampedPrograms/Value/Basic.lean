import StampedPrograms.Entries
import StampedPrograms.Binary64.Basic

/-!
Canonical values, the model that every hashed component is brought into. All numbers are doubles,
and a map lists its entries by ascending name.
-/

namespace StampedPrograms

inductive Value where
  | null
  | bool (b : Bool)
  | number (x : Binary64)
  | string (s : String)
  | list (items : List Value)
  | map (entries : List (String × Value))

namespace Value

inductive Kind where
  | null
  | bool
  | number
  | string
  | list
  | map
deriving DecidableEq

def Kind.name : Kind → String
  | .null => "null"
  | .bool => "bool"
  | .number => "number"
  | .string => "string"
  | .list => "list"
  | .map => "map"

def kind : Value → Kind
  | .null => .null
  | .bool _ => .bool
  | .number _ => .number
  | .string _ => .string
  | .list _ => .list
  | .map _ => .map

/-- The map of a list of pairs: of several values under one name the last one stays. -/
def ofPairs (pairs : List (String × Value)) : Value :=
  .map (Entries.ofList pairs)

/-- A map with a single entry. -/
def tagged (tag : String) (payload : Value) : Value :=
  .map [(tag, payload)]

mutual

/-- Numbers are compared by sign and magnitude, everything else by its parts. -/
def equal : Value → Value → Bool
  | .null, .null => true
  | .bool a, .bool b => a == b
  | .number x, .number y => x == y
  | .string s, .string t => s == t
  | .list xs, .list ys => equalItems xs ys
  | .map xs, .map ys => equalEntries xs ys
  | _, _ => false

def equalItems : List Value → List Value → Bool
  | [], [] => true
  | x :: xs, y :: ys => equal x y && equalItems xs ys
  | _, _ => false

def equalEntries : List (String × Value) → List (String × Value) → Bool
  | [], [] => true
  | (name, x) :: xs, (name', y) :: ys => name == name' && equal x y && equalEntries xs ys
  | _, _ => false

end

mutual

theorem equal_iff : ∀ a b : Value, equal a b = true ↔ a = b
  | .null, b => by cases b <;> simp [equal]
  | .bool a, b => by cases b <;> simp [equal]
  | .number x, b => by cases b <;> simp [equal]
  | .string s, b => by cases b <;> simp [equal]
  | .list xs, b => by cases b <;> simp [equal, equalItems_iff xs]
  | .map xs, b => by cases b <;> simp [equal, equalEntries_iff xs]

theorem equalItems_iff : ∀ xs ys : List Value, equalItems xs ys = true ↔ xs = ys
  | [], ys => by cases ys <;> simp [equalItems]
  | x :: xs, ys => by cases ys <;> simp [equalItems, equal_iff x, equalItems_iff xs]

theorem equalEntries_iff :
    ∀ xs ys : List (String × Value), equalEntries xs ys = true ↔ xs = ys
  | [], ys => by cases ys <;> simp [equalEntries]
  | (name, x) :: xs, ys => by
      rcases ys with _ | ⟨⟨name', y⟩, ys⟩
      · simp [equalEntries]
      · simp [equalEntries, equal_iff x, equalEntries_iff xs]

end

instance : DecidableEq Value := fun a b => decidable_of_iff _ (equal_iff a b)

end Value

end StampedPrograms
