import Mathlib.Data.List.Forall2
import StampedPrograms.Proofs.Json.Datum
import StampedPrograms.Proofs.Json.Equality

/-!
Canonical values come back from their documents. A number that is an integer below 2^53 in magnitude travels as
this integer, which is a double, and every other number as the double it is. So no number changes on the way, and
neither does any list or map around it.
-/

namespace StampedPrograms

namespace Binary64

/-- The double nearest to an integer is no zero with a sign. -/
theorem unsignedZero_ofInt (i : Int) : (ofInt i).unsignedZero = ofInt i := by
  rw [unsignedZero]
  split
  · next hzero =>
      rw [magnitude_ofInt_eq_zero.mp hzero]
      decide +kernel
  · rfl

theorem natAbs_truncate (x : Binary64) : x.truncate.natAbs = x.whole := by
  rw [truncate]
  split <;> omega

theorem isIntegral_ofInt {i : Int} (h : i.natAbs < 2 * leadingBit) : (ofInt i).isIntegral = true := by
  have hfits : Fits64 i := by
    simp only [leadingBit] at h
    unfold Fits64
    omega
  rw [isIntegral, units_ofInt h, Nat.mul_mod_left, decide_eq_true (isFinite_ofInt hfits)]
  rfl

/-- A double without a signed zero is integral when it is the double nearest to its integer. -/
theorem ofInt_truncate {x : Binary64} (hintegral : x.isIntegral = true) (hunsigned : x.unsignedZero = x) :
    ofInt x.truncate = x := by
  rw [← unsignedZero_ofInt, unsignedZero_ofInt_truncate hintegral, hunsigned]

end Binary64

namespace Value

theorem itemDocuments_eq_map (items : List Value) : itemDocuments items = items.map toJson := by
  induction items with
  | nil => rfl
  | cons item items ih => rw [itemDocuments, ih, List.map_cons]

theorem entryDocuments_eq_mapItems (entries : List (String × Value)) :
    entryDocuments entries = Entries.mapItems toJson entries := by
  induction entries with
  | nil => rfl
  | cons entry entries ih =>
      rw [entryDocuments, ih]
      rfl

/-- The document holds what the value does, each number by its kind. -/
inductive Carried : Value → Json → Prop where
  | null : Carried .null .null
  | bool (b : Bool) : Carried (.bool b) (.bool b)
  | integer {i : Int} (fits : Fits64 i) (small : i.natAbs < exactBound) :
      Carried (.number (.ofInt i)) (.number (.int i fits))
  | float {x : Binary64} (finite : x.IsFinite) (other : ∀ i : Int, i.natAbs < exactBound → x ≠ .ofInt i) :
      Carried (.number x) (.number (.float x finite))
  | string (s : String) : Carried (.string s) (.string s)
  | list {items : List Value} {docs : List Json} (each : List.Forall₂ Carried items docs) :
      Carried (.list items) (.array docs)
  | map {entries : List (String × Value)} {members : List (String × Json)}
      (names : entries.map Prod.fst = members.map Prod.fst)
      (each : List.Forall₂ Carried (entries.map Prod.snd) (members.map Prod.snd)) :
      Carried (.map entries) (.object members)

/-! ### Numbers -/

theorem fits64_of_lt_exactBound {i : Int} (h : i.natAbs < exactBound) : Fits64 i := by
  unfold exactBound at h
  unfold Fits64
  omega

theorem numberDocument_ofInt {i : Int} (small : i.natAbs < exactBound) :
    numberDocument (.ofInt i) = .number (.int i (fits64_of_lt_exactBound small)) := by
  have hwhole : (Binary64.ofInt i).whole < exactBound := by rwa [Binary64.whole_ofInt small]
  rw [numberDocument, dif_pos ⟨Binary64.isIntegral_ofInt small, hwhole⟩]
  congr 2
  exact Binary64.truncate_ofInt small

theorem numberDocument_of_ne {x : Binary64} (finite : x.IsFinite) (hunsigned : x.unsignedZero = x)
    (other : ∀ i : Int, i.natAbs < exactBound → x ≠ .ofInt i) :
    numberDocument x = .number (.float x finite) := by
  have hnone : ¬ (x.isIntegral = true ∧ x.whole < exactBound) := by
    rintro ⟨hintegral, hsmall⟩
    rw [← Binary64.natAbs_truncate] at hsmall
    exact other x.truncate hsmall (Binary64.ofInt_truncate hintegral hunsigned).symm
  rw [numberDocument, dif_neg hnone, dif_pos finite]

theorem carried_numberDocument {x : Binary64} (finite : x.IsFinite) (hunsigned : x.unsignedZero = x) :
    Carried (.number x) (numberDocument x) := by
  by_cases hinteger : ∃ i : Int, i.natAbs < exactBound ∧ x = .ofInt i
  · obtain ⟨i, hsmall, rfl⟩ := hinteger
    rw [numberDocument_ofInt hsmall]
    exact .integer _ hsmall
  · have hother : ∀ i : Int, i.natAbs < exactBound → x ≠ .ofInt i :=
      fun i hsmall heq => hinteger ⟨i, hsmall, heq⟩
    rw [numberDocument_of_ne finite hunsigned hother]
    exact .float finite hother

/-! ### Values -/

theorem carried_toJson {v : Value} (h : v.Canonical) : Carried v v.toJson := by
  induction h with
  | null => exact .null
  | bool b => exact .bool b
  | number finite unsigned => exact carried_numberDocument finite unsigned
  | string s => exact .string s
  | @list items _ ih =>
      rw [toJson, itemDocuments_eq_map]
      refine .list ?_
      rw [List.forall₂_map_right_iff, List.forall₂_same]
      exact ih
  | @map entries _ _ ih =>
      rw [toJson, entryDocuments_eq_mapItems]
      refine .map (Entries.names_mapItems toJson entries).symm ?_
      rw [Entries.mapItems, List.map_map, List.forall₂_map_left_iff, List.forall₂_map_right_iff, List.forall₂_same]
      exact ih

theorem map_eq_of_forall₂ {α β : Type} {R : α → β → Prop} {f : β → α} {xs : List α} {ys : List β}
    (each : List.Forall₂ R xs ys) (h : ∀ x ∈ xs, ∀ y, R x y → f y = x) : ys.map f = xs := by
  induction each with
  | nil => rfl
  | @cons x y xs ys hxy _ ih =>
      obtain ⟨hfirst, hrest⟩ := List.forall_mem_cons.mp h
      rw [List.map_cons, hfirst y hxy, ih hrest]

/-- Every document that carries a canonical value is read as that value. -/
theorem ofJson_of_carried {v : Value} {doc : Json} (h : v.Canonical) (hcarried : Carried v doc) :
    ofJson doc = v := by
  induction h generalizing doc with
  | null =>
      cases hcarried
      rfl
  | bool b =>
      cases hcarried
      rfl
  | number finite unsigned =>
      cases hcarried with
      | @integer i fits small => exact congrArg number (Binary64.unsignedZero_ofInt i)
      | float finite other => exact congrArg number unsigned
  | string s =>
      cases hcarried
      rfl
  | list _ ih =>
      cases hcarried with
      | list each => rw [ofJson, ofItems_eq_map, map_eq_of_forall₂ each fun item hitem doc => ih item hitem]
  | @map entries ascending _ ih =>
      cases hcarried with
      | @map _ members names each =>
          have hitems : (members.map Prod.snd).map ofJson = entries.map Prod.snd := by
            refine map_eq_of_forall₂ each fun item hitem doc hdoc => ?_
            obtain ⟨entry, hentry, rfl⟩ := List.mem_map.mp hitem
            exact ih entry hentry hdoc
          have hentries : Entries.mapItems ofJson members = entries :=
            calc Entries.mapItems ofJson members = (entries.map Prod.fst).zip (entries.map Prod.snd) := by
                  refine List.zip_of_prod ?_ ?_
                  · rw [Entries.names_mapItems, names]
                  · rw [← hitems, Entries.mapItems, List.map_map, List.map_map]
                    rfl
              _ = entries := (List.zip_of_prod rfl rfl).symm
          calc ofJson (.object members) = .map (Entries.ofList (Entries.mapItems ofJson members)) := by
                rw [ofJson, ofMembers_eq_map]
                rfl
            _ = .map entries := by rw [hentries, ascending.ofList_eq]

/-- A canonical value travels through its document unchanged: integers below 2^53 in magnitude as integers, all other
numbers as doubles, and what is read, with every number checked, is the value. -/
theorem document_returns {v : Value} (h : v.Canonical) :
    Carried v v.toJson ∧ fromJson v.toJson = .ok v ∧ ofJson v.toJson = v := by
  have hcarried := carried_toJson h
  have hvalue := ofJson_of_carried h hcarried
  exact ⟨hcarried, by rw [fromJson_eq, hvalue], hvalue⟩

/-- The largest integer that travels as one, the next one, and a half below zero. -/
def boundaryNumbers : Value :=
  .map [("n", .list [.number (.ofInt 0x1fffffffffffff), .number (.ofInt 0x20000000000000),
    .number (.ofBits 0xbfe0000000000000)]), ("z", .number .zero)]

theorem canonical_boundaryNumbers : boundaryNumbers.Canonical := by
  have hnumbers : Canonical (.list [.number (.ofInt 0x1fffffffffffff), .number (.ofInt 0x20000000000000),
      .number (.ofBits 0xbfe0000000000000)]) := by
    refine .list fun item hitem => ?_
    simp only [List.mem_cons, List.not_mem_nil, or_false] at hitem
    rcases hitem with rfl | rfl | rfl <;> exact .number (by decide +kernel) (by decide +kernel)
  refine .map (by unfold Entries.Ascending; decide) fun entry hentry => ?_
  simp only [List.mem_cons, List.not_mem_nil, or_false] at hentry
  rcases hentry with rfl | rfl
  · exact hnumbers
  · exact .number (by decide) rfl

theorem document_returns_boundaryNumbers :
    boundaryNumbers.Canonical ∧
    boundaryNumbers.toJson.print = "\x7b\"n\":[9007199254740991,9007199254740992.0,-0.5],\"z\":0\x7d" ∧
    Carried boundaryNumbers boundaryNumbers.toJson ∧ fromJson boundaryNumbers.toJson = .ok boundaryNumbers := by
  obtain ⟨hcarried, hchecked, -⟩ := document_returns canonical_boundaryNumbers
  exact ⟨canonical_boundaryNumbers, by decide +kernel, hcarried, hchecked⟩

end Value

end StampedPrograms
