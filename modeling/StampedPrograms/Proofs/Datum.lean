import StampedPrograms.Datum
import StampedPrograms.Proofs.Error
import StampedPrograms.Proofs.Value.Canonical

/-!
What host data stands for is canonical. Whatever calls a host makes, in whatever order, a value that comes out
of them has finite numbers only, no zero with a sign, and every map in order.
-/

namespace StampedPrograms

namespace Value

theorem ofBinary64_eq_ok {x : Binary64} {v : Value} :
    ofBinary64 x = .ok v ↔ x.IsFinite ∧ v = .number x.unsignedZero := by
  unfold ofBinary64
  split
  · next h => simp [h, eq_comm]
  · next h => simp [h]

theorem Canonical.insert {entries : List (String × Value)} (h : Canonical (.map entries)) (name : String)
    {item : Value} (hitem : item.Canonical) : Canonical (.map (Entries.insert name item entries)) := by
  refine .map (h.ascending.insert name item) fun entry hentry => ?_
  rcases Entries.mem_insert hentry with rfl | hentry
  · exact hitem
  · exact h.of_mem_map entry hentry

end Value

namespace Datum

open Value (Canonical)

theorem numberValue_eq_ok {x : Binary64} {v : Value} :
    numberValue x = .ok v ↔ x.IsFinite ∧ v = .number x.unsignedZero := by
  rw [← Value.ofBinary64_eq_ok, numberValue]
  cases Value.ofBinary64 x with
  | ok v => rfl
  | error e => simp

theorem canonical_numberValue {x : Binary64} {v : Value} (h : numberValue x = .ok v) : v.Canonical := by
  obtain ⟨hfinite, rfl⟩ := numberValue_eq_ok.mp h
  exact Value.canonical_number hfinite

mutual

theorem canonical_toValue : ∀ (d : Datum) (v : Value), toValue d = .ok v → v.Canonical
  | .absent, _, h => by cases h; exact .null
  | .unit, _, h => by cases h; exact .null
  | .bool _, _, h => by cases h; exact .bool _
  | .int _, _, h => canonical_numberValue h
  | .wideInt _ _, _, h => by cases h
  | .single _, _, h => canonical_numberValue h
  | .double _, _, h => canonical_numberValue h
  | .char _, _, h => by cases h; exact .string _
  | .string _, _, h => by cases h; exact .string _
  | .bytes _, _, h => by cases h
  | .displayed _, _, h => by cases h; exact .string _
  | .wrapped inner, v, h => canonical_toValue inner v h
  | .unitVariant _, _, h => by cases h; exact .string _
  | .variant tag payload, _, h => by
      obtain ⟨v, hv, ⟨⟩⟩ := bind_eq_ok.mp h
      exact Value.canonical_tagged tag (canonical_toValue payload v hv)
  | .seq items, _, h => by
      obtain ⟨vs, hvs, ⟨⟩⟩ := bind_eq_ok.mp h
      exact .list (canonical_itemValues items vs hvs)
  | .seqVariant tag items, _, h => by
      obtain ⟨vs, hvs, ⟨⟩⟩ := bind_eq_ok.mp h
      exact Value.canonical_tagged tag (.list (canonical_itemValues items vs hvs))
  | .map calls, _, h => by
      obtain ⟨entries, hentries, ⟨⟩⟩ := bind_eq_ok.mp h
      exact canonical_mapEntries [] none calls entries (.map .nil (by simp)) hentries
  | .record fields, _, h => by
      obtain ⟨pairs, hpairs, ⟨⟩⟩ := bind_eq_ok.mp h
      exact Value.canonical_ofPairs (canonical_fieldValues fields pairs hpairs)
  | .recordVariant tag fields, _, h => by
      obtain ⟨pairs, hpairs, ⟨⟩⟩ := bind_eq_ok.mp h
      exact Value.canonical_tagged tag (Value.canonical_ofPairs (canonical_fieldValues fields pairs hpairs))
  | .refused _, _, h => by cases h

theorem canonical_itemValues :
    ∀ (items : List Datum) (vs : List Value), itemValues items = .ok vs → ∀ v ∈ vs, v.Canonical
  | [], _, h => by cases h; simp
  | item :: items, _, h => by
      obtain ⟨v, hv, h⟩ := bind_eq_ok.mp h
      obtain ⟨vs, hvs, ⟨⟩⟩ := bind_eq_ok.mp h
      exact List.forall_mem_cons.mpr ⟨canonical_toValue item v hv, canonical_itemValues items vs hvs⟩

theorem canonical_fieldValues :
    ∀ (fields : List (String × Datum)) (pairs : List (String × Value)),
      fieldValues fields = .ok pairs → ∀ pair ∈ pairs, pair.2.Canonical
  | [], _, h => by cases h; simp
  | (_, item) :: fields, _, h => by
      obtain ⟨v, hv, h⟩ := bind_eq_ok.mp h
      obtain ⟨pairs, hpairs, ⟨⟩⟩ := bind_eq_ok.mp h
      exact List.forall_mem_cons.mpr ⟨canonical_toValue item v hv, canonical_fieldValues fields pairs hpairs⟩

/-- The map under construction is canonical after every call, with or without a key that waits. -/
theorem canonical_mapEntries :
    ∀ (entries : List (String × Value)) (pending : Option String) (calls : List (MapCall × Datum))
      (out : List (String × Value)), Canonical (.map entries) →
      mapEntries entries pending calls = .ok out → Canonical (.map out)
  | _, none, [], _, hentries, h => by cases h; exact hentries
  | _, some _, [], _, _, h => by cases h
  | entries, none, (.key, _) :: calls, out, hentries, h => by
      obtain ⟨_, -, h⟩ := bind_eq_ok.mp h
      obtain ⟨name, -, h⟩ := bind_eq_ok.mp h
      exact canonical_mapEntries entries (some name) calls out hentries h
  | _, some _, (.key, _) :: _, _, _, h => by cases h
  | _, none, (.value, _) :: _, _, _, h => by cases h
  | entries, some name, (.value, item) :: calls, out, hentries, h => by
      obtain ⟨v, hv, h⟩ := bind_eq_ok.mp h
      exact canonical_mapEntries _ none calls out (hentries.insert name (canonical_toValue item v hv)) h

end

end Datum

end StampedPrograms
