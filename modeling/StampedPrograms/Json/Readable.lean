import StampedPrograms.Json.Basic

/-!
Reading typed data off documents. A document that does not have the shape of the type is refused as
a whole; members that the type does not know are ignored.
-/

namespace StampedPrograms

class Readable (α : Type) where
  ofJson? : Json → Option α

export Readable (ofJson?)

instance : Readable Json := ⟨some⟩

instance : Readable String := ⟨Json.asString?⟩

instance : Readable Bool where
  ofJson?
    | .bool b => some b
    | _ => none

/-- A natural number below a bound, written as an integer. -/
def Json.natBelow? (bound : Nat) : Json → Option Nat
  | .number (.int i _) => if 0 ≤ i ∧ i < bound then some i.toNat else none
  | _ => none

instance : Readable UInt32 := ⟨fun doc => (doc.natBelow? 0x100000000).map UInt32.ofNat⟩

instance : Readable UInt64 := ⟨fun doc => (doc.natBelow? 0x10000000000000000).map UInt64.ofNat⟩

instance {α : Type} [Readable α] : Readable (List α) where
  ofJson?
    | .array items => items.mapM ofJson?
    | _ => none

namespace Json

variable {α : Type} [Readable α]

/-- A required member. -/
def field? (doc : Json) (name : String) : Option α :=
  (doc.member? name).bind ofJson?

/-- A member with a default for when it is absent; null is no absence. -/
def fieldOr? (doc : Json) (name : String) (default : α) : Option α :=
  match doc.member? name with
  | none => some default
  | some found => ofJson? found

/-- A member that may be absent or null. -/
def optionalField? (doc : Json) (name : String) : Option (Option α) :=
  match doc.present? name with
  | none => some none
  | some found => (ofJson? found).map some

/-- A member with two spellings, of which at most one may be there, and a default. -/
def fieldSpelled? (doc : Json) (name other : String) (default : α) : Option α :=
  match doc.member? name, doc.member? other with
  | none, none => some default
  | some found, none => ofJson? found
  | none, some found => ofJson? found
  | some _, some _ => none

/-- Only objects are read as records. -/
def record? (doc : Json) : Option Unit :=
  doc.asObject?.map fun _ => ()

theorem sizeOf_lookup {members : List (String × Json)} {name : String} {part : Json}
    (h : members.lookup name = some part) : sizeOf part < sizeOf members := by
  induction members with
  | nil => simp at h
  | cons head rest ih =>
      obtain ⟨key, item⟩ := head
      rw [List.lookup_cons] at h
      split at h
      · injection h with h
        subst h
        simp only [List.cons.sizeOf_spec, Prod.mk.sizeOf_spec]
        omega
      · have := ih h
        simp only [List.cons.sizeOf_spec]
        omega

/-- A member as a part of its document. -/
def part? (doc : Json) (name : String) : Option { part : Json // sizeOf part < sizeOf doc } :=
  match doc with
  | .object members =>
      match found : members.lookup name with
      | some part => some ⟨part, by
          have := sizeOf_lookup found
          simp only [object.sizeOf_spec]
          omega⟩
      | none => none
  | _ => none

/-- The items of an array as parts of it. -/
def items? (doc : Json) : Option (List { part : Json // sizeOf part < sizeOf doc }) :=
  match doc with
  | .array items => some (items.attach.map fun item => ⟨item.1, by
      have := List.sizeOf_lt_of_mem item.2
      simp only [array.sizeOf_spec]
      omega⟩)
  | _ => none

end Json

end StampedPrograms
