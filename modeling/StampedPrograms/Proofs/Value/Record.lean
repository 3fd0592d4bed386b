import StampedPrograms.Value.Document
import StampedPrograms.Proofs.Binary64.Integers
import StampedPrograms.Proofs.Value.Canonical

/-!
Records with fixed names: the value of a record gives back the values of all its items, and these give
back the flags, texts, lists of texts and small numbers that were written.
-/

namespace StampedPrograms.Value

theorem ofJson_ofPairs (pairs : List (String × Json)) :
    ofJson (.ofPairs pairs) = ofPairs (Entries.mapItems ofJson pairs) := by
  have hascending : Entries.Ascending (Entries.mapItems ofJson (Entries.ofList pairs)) :=
    (Entries.ascending_ofList pairs).mapItems ofJson
  show ofPairs (ofMembers (Entries.ofList pairs)) = _
  rw [ofMembers_eq_map, ofPairs, ofPairs, ← Entries.ofList_mapItems]
  exact congrArg map hascending.ofList_eq

/-- The value of a record determines the item of each name, the last one under that name. -/
theorem lookup_of_record_eq {pairs others : List (String × Json)}
    (h : ofJson (.ofPairs pairs) = ofJson (.ofPairs others)) (name : String) :
    (pairs.reverse.lookup name).map ofJson = (others.reverse.lookup name).map ofJson := by
  rw [ofJson_ofPairs, ofJson_ofPairs] at h
  have hlookup := congrArg (List.lookup name) (map.inj h)
  rw [Entries.lookup_ofList, Entries.lookup_ofList] at hlookup
  rw [← Entries.lookup_mapItems, ← Entries.lookup_mapItems]
  simpa [Entries.mapItems] using hlookup

/-- Under names that are all different, the value of a record determines all items. -/
theorem items_of_record_eq {pairs others : List (String × Json)}
    (h : ofJson (.ofPairs pairs) = ofJson (.ofPairs others))
    (hnames : pairs.map Prod.fst = others.map Prod.fst) (hnodup : (pairs.map Prod.fst).Nodup) :
    Entries.mapItems ofJson pairs = Entries.mapItems ofJson others := by
  have hleft : (Entries.mapItems ofJson pairs.reverse).map Prod.fst = (pairs.map Prod.fst).reverse := by
    rw [Entries.names_mapItems, List.map_reverse]
  have hright : (Entries.mapItems ofJson others.reverse).map Prod.fst = (pairs.map Prod.fst).reverse := by
    rw [Entries.names_mapItems, List.map_reverse, hnames]
  have hlookup (name : String) : (Entries.mapItems ofJson pairs.reverse).lookup name =
      (Entries.mapItems ofJson others.reverse).lookup name := by
    rw [Entries.lookup_mapItems, Entries.lookup_mapItems, lookup_of_record_eq h]
  have hdistinct : (pairs.map Prod.fst).reverse.Nodup := (List.reverse_perm _).nodup_iff.mpr hnodup
  have hreverse := Entries.eq_of_lookup_eq hleft hright hdistinct fun name _ => hlookup name
  rw [Entries.mapItems, Entries.mapItems, List.map_reverse, List.map_reverse] at hreverse
  exact List.reverse_inj.mp hreverse

theorem record_eq_iff_items {pairs others : List (String × Json)} (hnames : pairs.map Prod.fst = others.map Prod.fst)
    (hnodup : (pairs.map Prod.fst).Nodup) : ofJson (.ofPairs pairs) = ofJson (.ofPairs others) ↔
      Entries.mapItems ofJson pairs = Entries.mapItems ofJson others := by
  refine ⟨fun h => items_of_record_eq h hnames hnodup, fun h => ?_⟩
  rw [ofJson_ofPairs, ofJson_ofPairs, h]

/-- The record of items under their names, all of them different, tells which items there are, as far as each of
them is told by its name and its value; it does not tell in which order they were listed. -/
theorem ofJson_items_eq_iff_perm {α : Type} {name : α → String} (document : α → Json) {xs ys : List α}
    (hxs : (xs.map name).Nodup) (hys : (ys.map name).Nodup)
    (hinj : ∀ x ∈ xs, ∀ y ∈ ys, name x = name y → ofJson (document x) = ofJson (document y) → x = y) :
    ofJson (.ofPairs (xs.map fun x => (name x, document x))) =
      ofJson (.ofPairs (ys.map fun y => (name y, document y))) ↔ xs.Perm ys := by
  have hpairs (zs : List α) : Entries.mapItems ofJson (zs.map fun z => (name z, document z)) =
      zs.map fun z => (name z, ofJson (document z)) := by
    rw [Entries.mapItems, List.map_map]
    rfl
  have hnames {zs : List α} (hzs : (zs.map name).Nodup) :
      ((zs.map fun z => (name z, ofJson (document z))).map Prod.fst).Nodup := by
    rw [List.map_map]
    exact hzs
  have hnodup {zs : List α} (hzs : (zs.map name).Nodup) : zs.Nodup :=
    (List.pairwise_map.mp hzs).imp fun hne heq => hne (congrArg name heq)
  rw [ofJson_ofPairs, ofJson_ofPairs, hpairs, hpairs, ofPairs, ofPairs, map.injEq,
    Entries.ofList_eq_iff_perm (hnames hxs) (hnames hys)]
  refine ⟨fun h => ?_, fun h => h.map _⟩
  refine (List.perm_ext_iff_of_nodup (hnodup hxs) (hnodup hys)).mpr fun z => ⟨fun hz => ?_, fun hz => ?_⟩
  · obtain ⟨y, hy, hpair⟩ := List.mem_map.mp (h.subset (List.mem_map_of_mem hz))
    obtain ⟨hname, hvalue⟩ := Prod.mk.inj hpair
    rwa [hinj z hz y hy hname.symm hvalue.symm]
  · obtain ⟨x, hx, hpair⟩ := List.mem_map.mp (h.symm.subset (List.mem_map_of_mem hz))
    obtain ⟨hname, hvalue⟩ := Prod.mk.inj hpair
    rwa [← hinj x hx z hz hname hvalue]

/-! ### Items -/

theorem ofJson_bool_inj {a b : Bool} : ofJson (.bool a) = ofJson (.bool b) ↔ a = b :=
  ⟨bool.inj, fun h => h ▸ rfl⟩

theorem ofJson_string_inj {s t : String} : ofJson (.string s) = ofJson (.string t) ↔ s = t :=
  ⟨string.inj, fun h => h ▸ rfl⟩

theorem ofJson_ofStrings_inj {xs ys : List String} :
    ofJson (.ofStrings xs) = ofJson (.ofStrings ys) ↔ xs = ys := by
  refine ⟨fun h => ?_, fun h => h ▸ rfl⟩
  have hitems : (xs.map Json.string).map ofJson = (ys.map Json.string).map ofJson := by
    rw [← ofItems_eq_map, ← ofItems_eq_map]
    exact list.inj h
  rw [List.map_map, List.map_map] at hitems
  exact (List.map_inj_right fun _ _ => string.inj).mp hitems

/-- Integers below 2^53 are doubles, so none of them becomes another one. -/
theorem ofJson_int_inj {i j : Int} {hi : Fits64 i} {hj : Fits64 j} (hsmall : i.natAbs < exactBound)
    (hsmall' : j.natAbs < exactBound) :
    ofJson (.number (.int i hi)) = ofJson (.number (.int j hj)) ↔ i = j := by
  refine ⟨fun h => ?_, fun h => by subst h; rfl⟩
  have htruncate := congrArg Binary64.truncate (number.inj h)
  rw [Binary64.truncate_unsignedZero, Binary64.truncate_unsignedZero, JsonNumber.toBinary64,
    JsonNumber.toBinary64, Binary64.truncate_ofInt hsmall, Binary64.truncate_ofInt hsmall'] at htruncate
  exact htruncate

theorem ofJson_ofUInt32_inj {m n : UInt32} : ofJson (.ofUInt32 m) = ofJson (.ofUInt32 n) ↔ m = n := by
  have hsmall (k : UInt32) : (k.toNat : Int).natAbs < exactBound := by
    rw [Int.natAbs_natCast]
    exact Nat.lt_trans k.toNat_lt (by decide)
  rw [Json.ofUInt32, Json.ofUInt32, ofJson_int_inj (hsmall m) (hsmall n), Int.natCast_inj, UInt32.toNat_inj]

theorem ofJson_ofUInt64_inj {m n : UInt64} (hm : m.toNat < exactBound) (hn : n.toNat < exactBound) :
    ofJson (.ofUInt64 m) = ofJson (.ofUInt64 n) ↔ m = n := by
  rw [← Int.natAbs_natCast m.toNat] at hm
  rw [← Int.natAbs_natCast n.toNat] at hn
  rw [Json.ofUInt64, Json.ofUInt64, ofJson_int_inj hm hn, Int.natCast_inj, UInt64.toNat_inj]

/-- Numbers of 64 bits need not be doubles, but only zero becomes zero. -/
theorem ofJson_ofUInt64_zero {n : UInt64} : ofJson (.ofUInt64 0) = ofJson (.ofUInt64 n) ↔ 0 = n := by
  refine ⟨fun h => ?_, fun h => h ▸ rfl⟩
  have hmagnitude (x : Binary64) : x.unsignedZero.magnitude = x.magnitude := by
    unfold Binary64.unsignedZero
    split
    · next hzero => exact hzero.symm
    · rfl
  have hnumber := congrArg Binary64.magnitude (number.inj h)
  rw [hmagnitude, hmagnitude] at hnumber
  have hzero : (Binary64.ofInt (0 : UInt64).toNat).magnitude = 0 := by decide +kernel
  have hnearest : Binary64.nearest (n.toNat * Binary64.unitsPerOne) 1 = 0 := hnumber.symm.trans hzero
  have hunits := Binary64.nearest_one_eq_zero hnearest
  rcases Nat.mul_eq_zero.mp hunits with hn | hone
  · exact (UInt64.toNat_inj.mp hn).symm
  · exact absurd hone (Nat.ne_of_gt Binary64.unitsPerOne_pos)

end StampedPrograms.Value
