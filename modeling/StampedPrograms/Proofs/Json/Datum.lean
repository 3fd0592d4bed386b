import StampedPrograms.Digest
import StampedPrograms.Json.Datum
import StampedPrograms.Proofs.Datum

/-!
A document comes into the canonical model by two roads: it is read part by part, or handed over call by call
as host data. Both lead to the same value, none fails, and so a document has one identity.
-/

namespace StampedPrograms

namespace Value

mutual

/-- The value of a document, with every number checked where it stands. -/
def fromJson : Json → Except Error Value
  | .null => .ok .null
  | .bool b => .ok (.bool b)
  | .number n => ofBinary64 n.toBinary64
  | .string s => .ok (.string s)
  | .array items => do return .list (← fromItems items)
  | .object members => do return .map (← fromMembers [] members)

def fromItems : List Json → Except Error (List Value)
  | [] => .ok []
  | item :: items => do
      let value ← fromJson item
      let values ← fromItems items
      return value :: values

/-- The entries of a map after these members, from the entries so far. -/
def fromMembers (entries : List (String × Value)) :
    List (String × Json) → Except Error (List (String × Value))
  | [] => .ok entries
  | (name, item) :: members => do
      let value ← fromJson item
      fromMembers (Entries.insert name value entries) members

end

/-- The entries of a map after these pairs, from the entries so far. -/
def addAll (entries pairs : List (String × Value)) : List (String × Value) :=
  pairs.foldl (fun entries pair => Entries.insert pair.1 pair.2 entries) entries

theorem ofBinary64_document (n : JsonNumber) : ofBinary64 n.toBinary64 = .ok (ofNumber n) :=
  ofBinary64_eq_ok.mpr ⟨n.isFinite_toBinary64, rfl⟩

mutual

theorem fromJson_eq : ∀ doc : Json, fromJson doc = .ok (ofJson doc)
  | .null => rfl
  | .bool _ => rfl
  | .number n => ofBinary64_document n
  | .string _ => rfl
  | .array items => by
      rw [fromJson, fromItems_eq items]
      rfl
  | .object members => by
      rw [fromJson, fromMembers_eq [] members]
      rfl

theorem fromItems_eq : ∀ items : List Json, fromItems items = .ok (ofItems items)
  | [] => rfl
  | item :: items => by
      rw [fromItems, fromJson_eq item, fromItems_eq items]
      rfl

theorem fromMembers_eq (entries : List (String × Value)) :
    ∀ members : List (String × Json), fromMembers entries members = .ok (addAll entries (ofMembers members))
  | [] => rfl
  | (name, item) :: members => by
      rw [fromMembers, fromJson_eq item, ok_bind, fromMembers_eq _ members]
      rfl

end

end Value

namespace Datum

open Value (ofJson ofItems ofMembers addAll)

theorem toValue_number (n : JsonNumber) : n.toDatum.toValue = .ok (Value.ofNumber n) := by
  have hnumber : numberValue n.toBinary64 = .ok (Value.ofNumber n) :=
    numberValue_eq_ok.mpr ⟨n.isFinite_toBinary64, rfl⟩
  cases n with
  | int i fits => exact hnumber
  | float x finite => exact hnumber

mutual

theorem toValue_toDatum : ∀ doc : Json, doc.toDatum.toValue = .ok (ofJson doc)
  | .null => rfl
  | .bool _ => rfl
  | .number n => toValue_number n
  | .string _ => rfl
  | .array items => by
      rw [Json.toDatum, toValue, itemValues_itemData items]
      rfl
  | .object members => by
      rw [Json.toDatum, toValue, mapEntries_memberCalls [] members]
      rfl

theorem itemValues_itemData : ∀ items : List Json, itemValues (Json.itemData items) = .ok (ofItems items)
  | [] => rfl
  | item :: items => by
      rw [Json.itemData, itemValues, toValue_toDatum item, itemValues_itemData items]
      rfl

/-- A member is a key and a value in turn, so between two members no key waits. -/
theorem mapEntries_memberCalls (entries : List (String × Value)) :
    ∀ members : List (String × Json),
      mapEntries entries none (Json.memberCalls members) = .ok (addAll entries (ofMembers members))
  | [] => rfl
  | (name, item) :: members => by
      rw [Json.memberCalls, mapEntries, toValue, ok_bind, keyName, ok_bind, mapEntries,
        toValue_toDatum item, ok_bind, mapEntries_memberCalls _ members]
      rfl

end

end Datum

namespace Json

/-- Every document has one value, whether it is read or handed over: neither fails, and its text and its
identity are those of the document. All values that come out of host data are canonical. -/
theorem exists_canonical_fromJson_and_toValue :
    (∀ doc : Json, ∃ v : Value, Value.fromJson doc = .ok v ∧ doc.toDatum.toValue = .ok v ∧ v.Canonical ∧
      v.encode = canonicalText doc ∧ v.digest = digest doc) ∧
    ∀ (d : Datum) (v : Value), d.toValue = .ok v → v.Canonical :=
  ⟨fun doc => ⟨Value.ofJson doc, Value.fromJson_eq doc, Datum.toValue_toDatum doc,
    Value.canonical_ofJson doc, rfl, rfl⟩, Datum.canonical_toValue⟩

/-- A map whose key is a wrapped character and whose value holds a negative zero and an integer that no
double is equal to. -/
theorem exists_canonical_fromJson_and_toValue_hostMap :
    Datum.toValue (.map [(.key, .wrapped (.char 'k')),
        (.value, .seq [.double (.signedZero true), .int 0x20000000000001])]) =
      .ok (.map [("k", .list [.number .zero, .number (.ofNat 0x20000000000000)])]) ∧
    Value.Canonical (.map [("k", .list [.number .zero, .number (.ofNat 0x20000000000000)])]) := by
  have hvalue : Datum.toValue (.map [(.key, .wrapped (.char 'k')),
        (.value, .seq [.double (.signedZero true), .int 0x20000000000001])]) =
      .ok (.map [("k", .list [.number .zero, .number (.ofNat 0x20000000000000)])]) :=
    toOption_eq_some.mp (by decide +kernel)
  exact ⟨hvalue, exists_canonical_fromJson_and_toValue.2 _ _ hvalue⟩

end Json

end StampedPrograms
