import StampedPrograms.Digest
import StampedPrograms.Json.Readable
import StampedPrograms.Proofs.Entries

/-!
Reading back what was written: the members of a record, small numbers, and lists.
-/

namespace StampedPrograms

namespace Json

/-- A member of a record is the last one that was given under its name. -/
theorem member?_ofPairs (pairs : List (String × Json)) (name : String) :
    (ofPairs pairs).member? name = pairs.reverse.lookup name :=
  Entries.lookup_ofList name pairs

section

variable {α β : Type} [Readable α] {doc item : Json} {name : String} {a : α}

/-- Reading a record goes on with what its next field holds. -/
theorem field?_bind {rest : α → Option β} {b : β} (hmember : doc.member? name = some item)
    (hitem : ofJson? item = some a) (hrest : rest a = some b) :
    ((doc.field? name : Option α).bind rest) = some b := by
  rw [field?, hmember, Option.bind_some, hitem, Option.bind_some, hrest]

theorem fieldOr?_of_member (hmember : doc.member? name = some item) (hitem : ofJson? item = some a)
    (default : α) : doc.fieldOr? name default = some a := by
  rw [fieldOr?, hmember]
  exact hitem

end

theorem ofJson?_string (s : String) : (ofJson? (.string s) : Option String) = some s := rfl

theorem natBelow?_ofUInt32 (n : UInt32) : (ofUInt32 n).natBelow? 0x100000000 = some n.toNat := by
  have hbounds : (0 : Int) ≤ n.toNat ∧ (n.toNat : Int) < (0x100000000 : Nat) := by
    have hlt := n.toNat_lt
    omega
  rw [ofUInt32, natBelow?, if_pos hbounds, Int.toNat_natCast]

theorem ofJson?_ofUInt32 (n : UInt32) : (ofJson? (.ofUInt32 n) : Option UInt32) = some n := by
  show ((ofUInt32 n).natBelow? 0x100000000).map UInt32.ofNat = some n
  rw [natBelow?_ofUInt32, Option.map_some, UInt32.ofNat_toNat]

end Json

section

variable {α β : Type} [Readable β]

/-- Items that are all read as their images are read together as the list of images. -/
theorem ofJson?_array {write : α → Json} {image : α → β} (h : ∀ a, ofJson? (write a) = some (image a))
    (items : List α) : (ofJson? (.array (items.map write)) : Option (List β)) = some (items.map image) := by
  show (items.map write).mapM ofJson? = some (items.map image)
  induction items with
  | nil => rfl
  | cons item items ih =>
      rw [List.map_cons, List.mapM_cons, h item, ih, List.map_cons]
      rfl

end

theorem Json.ofJson?_ofStrings (items : List String) :
    (ofJson? (.ofStrings items) : Option (List String)) = some items := by
  have hitems := ofJson?_array Json.ofJson?_string items
  rwa [List.map_id'] at hitems

end StampedPrograms
