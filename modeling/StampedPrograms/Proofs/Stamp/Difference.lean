import StampedPrograms.Stamp.Difference
import StampedPrograms.Proofs.Value.Record

/-!
Looking for the first difference of two records. Where both have the same names, each of them once, none
is found exactly if the records agree in all items, and the one that is found is under one of the names.
-/

namespace StampedPrograms.Value

variable {expected actual : List (String × Value)} {found : Difference}

theorem differingField?_eq_find? : differingField? actual expected =
    (expected.find? fun entry => (actual.lookup entry.1).getD .null ≠ entry.2).map fun entry =>
      ⟨entry.1, entry.2.text, ((actual.lookup entry.1).getD .null).text⟩ := by
  induction expected with
  | nil => rfl
  | cons entry rest ih =>
      rw [differingField?, List.find?_cons]
      split
      · next h => rw [ih, h]; simp
      · next h => simp [h]

theorem extraField?_eq_find? : extraField? expected actual =
    (actual.find? fun entry => (expected.lookup entry.1).isNone).map fun entry =>
      ⟨entry.1, Value.null.text, entry.2.text⟩ := by
  induction actual with
  | nil => rfl
  | cons entry rest ih =>
      rw [extraField?, List.find?_cons, ih]
      cases expected.lookup entry.1 <;> rfl

theorem differingField?_eq_none :
    differingField? actual expected = none ↔
      ∀ entry ∈ expected, (actual.lookup entry.1).getD .null = entry.2 := by
  rw [differingField?_eq_find?, Option.map_eq_none_iff, List.find?_eq_none]
  simp

theorem field_of_differingField? (h : differingField? actual expected = some found) :
    found.field ∈ expected.map Prod.fst := by
  rw [differingField?_eq_find?] at h
  obtain ⟨entry, hentry, rfl⟩ := Option.map_eq_some_iff.mp h
  exact List.mem_map_of_mem (List.mem_of_find?_eq_some hentry)

theorem extraField?_eq_none :
    extraField? expected actual = none ↔ ∀ entry ∈ actual, (expected.lookup entry.1).isSome = true := by
  rw [extraField?_eq_find?, Option.map_eq_none_iff, List.find?_eq_none]
  simp [Option.isSome_iff_ne_none]

theorem field_of_extraField? (h : extraField? expected actual = some found) :
    found.field ∈ actual.map Prod.fst := by
  rw [extraField?_eq_find?] at h
  obtain ⟨entry, hentry, rfl⟩ := Option.map_eq_some_iff.mp h
  exact List.mem_map_of_mem (List.mem_of_find?_eq_some hentry)

theorem field_of_difference? (h : difference? (.map expected) (.map actual) = some found) :
    found.field ∈ expected.map Prod.fst ∨ found.field ∈ actual.map Prod.fst := by
  rcases Option.or_eq_some_iff.mp h with h | ⟨-, h⟩
  · exact .inl (field_of_differingField? h)
  · exact .inr (field_of_extraField? h)

theorem difference?_eq_none {names : List String} (hexpected : expected.map Prod.fst = names)
    (hactual : actual.map Prod.fst = names) (hnodup : names.Nodup) :
    difference? (.map expected) (.map actual) = none ↔ expected = actual := by
  rw [difference?, Option.or_eq_none_iff, differingField?_eq_none, extraField?_eq_none]
  constructor
  · rintro ⟨hsame, -⟩
    refine Entries.eq_of_lookup_eq hexpected hactual hnodup fun name hname => ?_
    obtain ⟨want, hwant⟩ := Entries.exists_lookup (hexpected ▸ hname)
    obtain ⟨got, hgot⟩ := Entries.exists_lookup (hactual ▸ hname)
    have hitem : got = want := by simpa [hgot] using hsame _ (Entries.mem_of_lookup hwant)
    rw [hwant, hgot, hitem]
  · rintro rfl
    refine ⟨fun entry hentry => ?_, fun entry hentry => ?_⟩
    · rw [Entries.lookup_of_mem (hexpected ▸ hnodup) hentry]
      rfl
    · rw [Entries.lookup_of_mem (hexpected ▸ hnodup) hentry]
      rfl

/-! ### Records -/

section Records

variable {pairs others : List (String × Json)}

theorem field_of_record_difference
    (h : (ofJson (.ofPairs pairs)).difference? (ofJson (.ofPairs others)) = some found)
    (hnames : pairs.map Prod.fst = others.map Prod.fst) :
    found.field ∈ pairs.map Prod.fst := by
  rw [ofJson_ofPairs, ofJson_ofPairs] at h
  have hfield (pairs : List (String × Json))
      (hmem : found.field ∈ (Entries.ofList (Entries.mapItems ofJson pairs)).map Prod.fst) :
      found.field ∈ pairs.map Prod.fst := by
    obtain ⟨entry, hentry, heq⟩ := List.mem_map.mp hmem
    rw [← heq, ← Entries.names_mapItems ofJson]
    exact List.mem_map_of_mem (Entries.mem_of_mem_ofList hentry)
  rcases field_of_difference? h with h | h
  · exact hfield pairs h
  · exact hnames ▸ hfield others h

theorem record_difference_eq_none (hnames : pairs.map Prod.fst = others.map Prod.fst)
    (hnodup : (pairs.map Prod.fst).Nodup) :
    (ofJson (.ofPairs pairs)).difference? (ofJson (.ofPairs others)) = none ↔
      Entries.mapItems ofJson pairs = Entries.mapItems ofJson others := by
  have hsame : (Entries.ofList (Entries.mapItems ofJson others)).map Prod.fst =
      (Entries.ofList (Entries.mapItems ofJson pairs)).map Prod.fst :=
    Entries.names_ofList (by rw [Entries.names_mapItems, Entries.names_mapItems, hnames])
  rw [ofJson_ofPairs, ofJson_ofPairs, ofPairs, ofPairs,
    difference?_eq_none rfl hsame (Entries.ascending_ofList _).nodup]
  refine ⟨fun h => items_of_record_eq ?_ hnames hnodup, congrArg _⟩
  rw [ofJson_ofPairs, ofJson_ofPairs, ofPairs, ofPairs, h]

end Records

end StampedPrograms.Value
