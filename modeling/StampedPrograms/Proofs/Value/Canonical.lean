import StampedPrograms.Value.Document
import StampedPrograms.Proofs.Binary64.Rounding
import StampedPrograms.Proofs.Entries

/-!
Canonical values: every number is finite and no zero has a sign, and every map lists its entries in
order. All values that documents stand for are canonical.
-/

namespace StampedPrograms

namespace Binary64

theorem unsignedZero_idem (x : Binary64) : x.unsignedZero.unsignedZero = x.unsignedZero := by
  by_cases h : x.magnitude = 0 <;> simp [unsignedZero, h, zero, signedZero]

theorem isFinite_unsignedZero {x : Binary64} (h : x.IsFinite) : x.unsignedZero.IsFinite := by
  unfold unsignedZero
  split
  · decide
  · exact h

theorem divideToEven_le (num den : Nat) : divideToEven num den ≤ num / den + 1 := by
  have hparity := Nat.mod_lt (num / den) (by decide : 0 < 2)
  unfold divideToEven
  dsimp only
  split
  · omega
  · split <;> omega

/-- A whole number of units rounds to a magnitude whose exponent is that of its leading digit, or the
next one. -/
theorem nearest_one_le (num : Nat) : nearest num 1 ≤ (num.log2 - 52 + 2) * leadingBit := by
  have hquotient : num / 1 <<< (num.log2 - 52) < 2 ^ 53 := by
    rw [Nat.shiftLeft_eq, Nat.one_mul, Nat.div_lt_iff_lt_mul (Nat.two_pow_pos _), ← Nat.pow_add]
    refine Nat.lt_of_lt_of_le Nat.lt_log2_self (Nat.pow_le_pow_right (by decide) ?_)
    omega
  have hround := divideToEven_le num (1 <<< (num.log2 - 52))
  rw [nearest, Nat.div_one, Nat.add_mul]
  refine Nat.le_trans (Nat.min_le_left _ _) (Nat.add_le_add_left ?_ _)
  simp only [leadingBit]
  omega

theorem isFinite_ofInt {i : Int} (h : Fits64 i) : (ofInt i).IsFinite := by
  have hlog : (i.natAbs * unitsPerOne).log2 < 1139 := by
    by_cases hzero : i.natAbs = 0
    · simp [hzero]
    · have hsmall : i.natAbs.log2 < 65 := (Nat.log2_lt hzero).mpr (by unfold Fits64 at h; omega)
      rw [unitsPerOne_eq, ← Nat.shiftLeft_eq, log2_shiftLeft hzero]
      omega
  have hround := nearest_one_le (i.natAbs * unitsPerOne)
  show nearest (i.natAbs * unitsPerOne) 1 < infinite
  calc nearest (i.natAbs * unitsPerOne) 1
      ≤ ((i.natAbs * unitsPerOne).log2 - 52 + 2) * leadingBit := hround
    _ ≤ 1088 * leadingBit := Nat.mul_le_mul_right leadingBit (by omega)
    _ < infinite := by decide

end Binary64

theorem JsonNumber.isFinite_toBinary64 : ∀ n : JsonNumber, n.toBinary64.IsFinite
  | .int _ fits => Binary64.isFinite_ofInt fits
  | .float _ finite => finite

namespace Value

inductive Canonical : Value → Prop where
  | null : Canonical .null
  | bool (b : Bool) : Canonical (.bool b)
  | number {x : Binary64} (finite : x.IsFinite) (unsigned : x.unsignedZero = x) :
      Canonical (.number x)
  | string (s : String) : Canonical (.string s)
  | list {items : List Value} (canonical : ∀ item ∈ items, Canonical item) : Canonical (.list items)
  | map {entries : List (String × Value)} (ascending : Entries.Ascending entries)
      (canonical : ∀ entry ∈ entries, Canonical entry.2) : Canonical (.map entries)

theorem Canonical.of_mem_list {items : List Value} (h : Canonical (.list items)) :
    ∀ item ∈ items, Canonical item := by
  cases h
  assumption

theorem Canonical.of_mem_map {entries : List (String × Value)} (h : Canonical (.map entries)) :
    ∀ entry ∈ entries, Canonical entry.2 := by
  cases h
  assumption

theorem Canonical.ascending {entries : List (String × Value)} (h : Canonical (.map entries)) :
    Entries.Ascending entries := by
  cases h
  assumption

theorem canonical_ofPairs {pairs : List (String × Value)} (h : ∀ pair ∈ pairs, Canonical pair.2) :
    Canonical (ofPairs pairs) :=
  .map (Entries.ascending_ofList pairs) fun entry hentry => h entry (Entries.mem_of_mem_ofList hentry)

theorem canonical_tagged (tag : String) {payload : Value} (h : Canonical payload) :
    Canonical (tagged tag payload) := by
  refine .map (List.pairwise_singleton ..) ?_
  intro entry hentry
  rw [List.mem_singleton.mp hentry]
  exact h

theorem ofItems_eq_map (items : List Json) : ofItems items = items.map ofJson := by
  induction items with
  | nil => rfl
  | cons item items ih => rw [ofItems, ih, List.map_cons]

theorem ofMembers_eq_map (members : List (String × Json)) :
    ofMembers members = members.map fun member => (member.1, ofJson member.2) := by
  induction members with
  | nil => rfl
  | cons member members ih => rw [ofMembers, ih, List.map_cons]

theorem canonical_number {x : Binary64} (h : x.IsFinite) : Canonical (.number x.unsignedZero) :=
  .number (Binary64.isFinite_unsignedZero h) (Binary64.unsignedZero_idem x)

theorem canonical_ofNumber (n : JsonNumber) : Canonical (ofNumber n) :=
  canonical_number n.isFinite_toBinary64

mutual

theorem canonical_ofJson : ∀ doc : Json, Canonical (ofJson doc)
  | .null => .null
  | .bool b => .bool b
  | .number n => canonical_ofNumber n
  | .string s => .string s
  | .array items => .list (canonical_ofItems items)
  | .object members => canonical_ofPairs (canonical_ofMembers members)

theorem canonical_ofItems : ∀ items : List Json, ∀ v ∈ ofItems items, Canonical v
  | [], _, hv => absurd hv List.not_mem_nil
  | item :: items, v, hv => by
      rcases List.mem_cons.mp hv with rfl | hv
      · exact canonical_ofJson item
      · exact canonical_ofItems items v hv

theorem canonical_ofMembers :
    ∀ members : List (String × Json), ∀ entry ∈ ofMembers members, Canonical entry.2
  | [], _, hentry => absurd hentry List.not_mem_nil
  | (_, item) :: members, entry, hentry => by
      rcases List.mem_cons.mp hentry with rfl | hentry
      · exact canonical_ofJson item
      · exact canonical_ofMembers members entry hentry

end

end Value

end StampedPrograms
