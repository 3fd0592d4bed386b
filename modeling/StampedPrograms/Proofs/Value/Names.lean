import StampedPrograms.Proofs.Value.UniqueText

/-!
The names in canonical text. By the rules of the format a map is written as all its entries in ascending order of
the code units of their names. A value whose maps have each name once has exactly one text by these rules, its
canonical text. The map of a list of pairs has the last item given under each name, so nothing else of the list is
seen in its text.
-/

namespace StampedPrograms

namespace Entries

variable {α : Type}

/-- The last item given under a name. -/
def last? (name : String) (pairs : List (String × α)) : Option α :=
  pairs.reverse.lookup name

/-- A record in order is told by what is found under the names. -/
theorem Ascending.eq_of_lookup {left right : List (String × α)} (hleft : Ascending left)
    (hright : Ascending right) (h : ∀ name, left.lookup name = right.lookup name) : left = right := by
  have hmem {entry : String × α} : entry ∈ left ↔ entry ∈ right := by
    constructor
    · intro hentry
      have hlookup := lookup_of_mem hleft.nodup hentry
      rw [h] at hlookup
      exact mem_of_lookup hlookup
    · intro hentry
      have hlookup := lookup_of_mem hright.nodup hentry
      rw [← h] at hlookup
      exact mem_of_lookup hlookup
  refine hleft.eq_of_perm hright ?_
  exact (List.perm_ext_iff_of_nodup (nodup_of_names hleft.nodup) (nodup_of_names hright.nodup)).mpr fun _ => hmem

/-- The record of a list of pairs is told by the last items of the names. -/
theorem ofList_eq_of_last {pairs others : List (String × α)} (h : ∀ name, last? name pairs = last? name others) :
    ofList pairs = ofList others := by
  refine (ascending_ofList pairs).eq_of_lookup (ascending_ofList others) fun name => ?_
  rw [lookup_ofList, lookup_ofList]
  exact h name

/-- The record of a list of pairs has under each name the last item given. -/
theorem mem_ofList_iff {pairs : List (String × α)} {name : String} {item : α} :
    (name, item) ∈ ofList pairs ↔ last? name pairs = some item := by
  have hlookup : (ofList pairs).lookup name = last? name pairs := lookup_ofList name pairs
  constructor
  · intro h
    rw [← hlookup]
    exact lookup_of_mem (ascending_ofList pairs).nodup h
  · intro h
    rw [← hlookup] at h
    exact mem_of_lookup h

end Entries

namespace Utf16

variable {α : Type}

/-- Every name comes before all the names after it. -/
def Ascending (name : α → String) (items : List α) : Prop :=
  items.Pairwise fun left right => order (name left) (name right) = .lt

/-- Where no name occurs twice, sorting leaves no two names level. -/
theorem ascending_sortBy {name : α → String} {items : List α} (h : (items.map name).Nodup) :
    Ascending name (sortBy name items) := by
  have hnames : ((sortBy name items).map name).Nodup := ((sortBy_perm name items).map name).nodup_iff.mpr h
  refine (sorted_sortBy name items).imp₂ ?_ (List.pairwise_map.mp hnames)
  intro left right hle hne
  rcases Ordering.isLE_iff_eq_lt_or_eq_eq.mp hle with hlt | heq
  · exact hlt
  · exact absurd (Std.LawfulEqCmp.eq_of_compare heq) hne

/-- Items have only one ascending arrangement. -/
theorem Ascending.eq_of_perm {name : α → String} {left right : List α} (hleft : Ascending name left)
    (hright : Ascending name right) (h : left.Perm right) : left = right := by
  refine h.eq_of_pairwise (fun _ _ _ _ hab hba => ?_) hleft hright
  rw [Std.OrientedCmp.gt_of_lt hab] at hba
  cases hba

end Utf16

namespace Value

/-- No map has a name twice, at any depth. -/
inductive NamedOnce : Value → Prop where
  | null : NamedOnce .null
  | bool (b : Bool) : NamedOnce (.bool b)
  | number (x : Binary64) : NamedOnce (.number x)
  | string (s : String) : NamedOnce (.string s)
  | list {items : List Value} (each : ∀ item ∈ items, NamedOnce item) : NamedOnce (.list items)
  | map {entries : List (String × Value)} (once : (entries.map Prod.fst).Nodup)
      (each : ∀ entry ∈ entries, NamedOnce entry.2) : NamedOnce (.map entries)

theorem NamedOnce.of_mem_list {items : List Value} (h : NamedOnce (.list items)) :
    ∀ item ∈ items, NamedOnce item := by
  cases h
  assumption

theorem NamedOnce.of_mem_map {entries : List (String × Value)} (h : NamedOnce (.map entries)) :
    ∀ entry ∈ entries, NamedOnce entry.2 := by
  cases h
  assumption

theorem NamedOnce.names {entries : List (String × Value)} (h : NamedOnce (.map entries)) :
    (entries.map Prod.fst).Nodup := by
  cases h
  assumption

theorem Canonical.namedOnce {v : Value} (h : Canonical v) : NamedOnce v := by
  induction h with
  | null => exact .null
  | bool b => exact .bool b
  | @number x => exact .number x
  | string s => exact .string s
  | list _ ih => exact .list ih
  | map ascending _ ih => exact .map ascending.nodup ih

/-- The text of a value by the rules of the format. Of the entries of a map these say only which ones stand there
and in which order: all of them, each once, by ascending code units of their names. -/
inductive Written : Value → List Char → Prop where
  | null : Written .null "null".toList
  | true : Written (.bool true) "true".toList
  | false : Written (.bool false) "false".toList
  | number (x : Binary64) : Written (.number x) x.canonicalText
  | string (s : String) : Written (.string s) (Quoted.json s)
  | list {items : List Value} (text : Value → List Char) (each : ∀ item ∈ items, Written item (text item)) :
      Written (.list items) ('[' :: (List.intercalate [','] (items.map text) ++ [']']))
  | map {entries : List (String × Value)} (listed : List (String × Value)) (text : Value → List Char)
      (same : listed.Perm entries) (ascending : Utf16.Ascending Prod.fst listed)
      (each : ∀ entry ∈ entries, Written entry.2 (text entry.2)) :
      Written (.map entries)
        ('\x7b' :: (List.intercalate [','] (listed.map fun entry => Quoted.json entry.1 ++ ':' :: text entry.2) ++
          ['\x7d']))

theorem written_encode {v : Value} (h : NamedOnce v) : Written v v.encode := by
  induction h with
  | null => exact .null
  | bool b =>
      cases b with
      | true => exact .true
      | false => exact .false
  | number x => exact .number x
  | string s => exact .string s
  | @list items _ ih =>
      rw [encode, encodeItems_eq_map]
      exact .list encode ih
  | @map entries once _ ih =>
      have htext := encode_map entries []
      rw [List.append_nil] at htext
      rw [htext]
      exact .map _ encode (Utf16.sortBy_perm Prod.fst entries) (Utf16.ascending_sortBy once) ih

/-- The rules leave no choice. -/
theorem Written.eq_encode {v : Value} {cs : List Char} (hwritten : Written v cs) (h : NamedOnce v) :
    cs = v.encode := by
  induction hwritten with
  | null => rfl
  | true => rfl
  | false => rfl
  | number x => rfl
  | string s => rfl
  | @list items text _ ih =>
      have htexts : items.map text = items.map encode :=
        List.map_congr_left fun item hitem => ih item hitem (h.of_mem_list item hitem)
      rw [encode, encodeItems_eq_map, htexts]
  | @map entries listed text same ascending _ ih =>
      have hlisted : listed = Utf16.sortBy Prod.fst entries :=
        ascending.eq_of_perm (Utf16.ascending_sortBy h.names) (same.trans (Utf16.sortBy_perm Prod.fst entries).symm)
      have htexts : (listed.map fun entry => Quoted.json entry.1 ++ ':' :: text entry.2) =
          listed.map entryEncoding := by
        refine List.map_congr_left fun entry hentry => ?_
        have hmem := same.mem_iff.mp hentry
        rw [ih entry hmem (h.of_mem_map entry hmem)]
        rfl
      have htext := encode_map entries []
      rw [List.append_nil] at htext
      rw [htexts, htext, hlisted]

/-- The text of the map of a list of pairs depends on nothing but the last item given under each name: these are its
entries. And the canonical text of any value is the one text by the rules of the format, in which every map at every
depth lists each of its names once, by ascending code units and with the text of its item. -/
theorem text_ofPairs_eq_and_written_iff :
    (∀ pairs others : List (String × Value), (∀ name, Entries.last? name pairs = Entries.last? name others) →
      (ofPairs pairs).text = (ofPairs others).text) ∧
    (∀ pairs : List (String × Value), ∃ entries, ofPairs pairs = .map entries ∧ (entries.map Prod.fst).Nodup ∧
      ∀ name item, (name, item) ∈ entries ↔ Entries.last? name pairs = some item) ∧
    ∀ v : Value, NamedOnce v → ∀ text : String, Written v text.toList ↔ text = v.text := by
  refine ⟨fun pairs others h => ?_, fun pairs => ?_, fun v hv text => ⟨fun h => ?_, ?_⟩⟩
  · rw [ofPairs, ofPairs, Entries.ofList_eq_of_last h]
  · exact ⟨Entries.ofList pairs, rfl, (Entries.ascending_ofList pairs).nodup, fun _ _ => Entries.mem_ofList_iff⟩
  · rw [Value.text, ← h.eq_encode hv, String.ofList_toList]
  · rintro rfl
    rw [Value.text, String.toList_ofList]
    exact written_encode hv

/-- A name beyond the first plane, given twice and listed first, beside one at the end of that plane, and a map inside
a list. -/
theorem text_ofPairs_eq_and_written_iff_face :
    let inner : Value := ofPairs [("b", .null), ("a", .bool true)]
    let pairs : List (String × Value) := [("😀", .null), ("\uffff", .list [inner]), ("😀", .string "last")]
    let others : List (String × Value) := [("\uffff", .list [inner]), ("😀", .string "last")]
    (∀ name, Entries.last? name pairs = Entries.last? name others) ∧
      (ofPairs pairs).text = (ofPairs others).text ∧ NamedOnce (ofPairs pairs) ∧
      Written (ofPairs pairs)
        "\x7b\"😀\":\"last\",\"\uffff\":[\x7b\"a\":true,\"b\":null\x7d]\x7d".toList := by
  intro inner pairs others
  have hlast (name : String) : Entries.last? name pairs = Entries.last? name others := by
    simp only [Entries.last?, pairs, others, List.reverse_cons, List.reverse_nil, List.nil_append,
      List.cons_append, List.lookup_cons, List.lookup_nil]
    cases name == "😀" <;> cases name == "\uffff" <;> rfl
  have hinner : Canonical inner := canonical_ofPairs (by simp [Canonical.null, Canonical.bool])
  have hpairs : Canonical (ofPairs pairs) := by
    refine canonical_ofPairs ?_
    simp only [pairs, List.mem_cons, List.not_mem_nil, or_false, forall_eq_or_imp, forall_eq]
    exact ⟨.null, .list (by simpa using hinner), .string "last"⟩
  obtain ⟨hsame, -, hwritten⟩ := text_ofPairs_eq_and_written_iff
  exact ⟨hlast, hsame pairs others hlast, hpairs.namedOnce, (hwritten _ hpairs.namedOnce _).mpr (by decide +kernel)⟩

end Value

end StampedPrograms
