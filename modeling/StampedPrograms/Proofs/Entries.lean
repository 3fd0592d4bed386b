import StampedPrograms.Entries

/-!
Records of named entries. Inserting keeps the order, changes one name and leaves the look-up of all
others, so a record that is in order is the record of its own entries.
-/

namespace StampedPrograms.Entries

variable {α β : Type}

theorem lt_of_not_lt {a b : String} (h : ¬ a < b) (hne : a ≠ b) : b < a := by
  apply Decidable.byContradiction
  intro hba
  exact hne (String.le_antisymm (String.not_lt.mp hba) (String.not_lt.mp h))

theorem mem_insert {name : String} {item : α} {entries : List (String × α)} {entry : String × α}
    (h : entry ∈ insert name item entries) : entry = (name, item) ∨ entry ∈ entries := by
  induction entries with
  | nil => simpa [insert] using h
  | cons head rest ih =>
      rw [insert] at h
      split at h
      · simpa using h
      split at h
      · rcases List.mem_cons.mp h with h | h
        · exact .inl h
        · exact .inr (List.mem_cons_of_mem _ h)
      · rcases List.mem_cons.mp h with h | h
        · exact .inr (h ▸ List.mem_cons_self ..)
        · exact (ih h).imp_right (List.mem_cons_of_mem _)

theorem Ascending.insert {entries : List (String × α)} (h : Ascending entries) (name : String)
    (item : α) : Ascending (insert name item entries) := by
  induction entries with
  | nil => exact List.pairwise_singleton ..
  | cons head rest ih =>
      obtain ⟨hhead, hrest⟩ := List.pairwise_cons.mp h
      rw [Entries.insert]
      split
      · next hlt =>
          refine List.pairwise_cons.mpr ⟨?_, h⟩
          intro entry hentry
          rcases List.mem_cons.mp hentry with rfl | hentry
          · exact hlt
          · exact String.lt_trans hlt (hhead entry hentry)
      · next hlt =>
          split
          · next heq => exact List.pairwise_cons.mpr ⟨fun entry hentry => heq ▸ hhead entry hentry, hrest⟩
          · next hne =>
              refine List.pairwise_cons.mpr ⟨?_, ih hrest⟩
              intro entry hentry
              rcases mem_insert hentry with rfl | hentry
              · exact lt_of_not_lt hlt hne
              · exact hhead entry hentry

theorem lookup_insert_self (name : String) (item : α) (entries : List (String × α)) :
    (insert name item entries).lookup name = some item := by
  induction entries with
  | nil => simp [insert]
  | cons head rest ih =>
      obtain ⟨key, old⟩ := head
      rw [insert]
      split
      · exact List.lookup_cons_self
      split
      · exact List.lookup_cons_self
      · next hne => rw [List.lookup_cons, beq_eq_false_iff_ne.mpr hne, ih]

theorem lookup_insert_ne {name other : String} (hne : other ≠ name) (item : α)
    (entries : List (String × α)) :
    (insert name item entries).lookup other = entries.lookup other := by
  have hother := beq_eq_false_iff_ne.mpr hne
  induction entries with
  | nil => rw [insert, List.lookup_cons, hother]
  | cons head rest ih =>
      obtain ⟨key, old⟩ := head
      rw [insert]
      split
      · rw [List.lookup_cons, hother]
      split
      · next heq =>
          dsimp only at heq
          rw [List.lookup_cons, List.lookup_cons, ← heq, hother]
      · rw [List.lookup_cons, List.lookup_cons, ih]

theorem mem_of_lookup {name : String} {item : α} {entries : List (String × α)}
    (h : entries.lookup name = some item) : (name, item) ∈ entries := by
  obtain ⟨before, after, rfl, _⟩ := List.lookup_eq_some_iff.mp h
  exact List.mem_append_right before (List.mem_cons_self ..)

theorem lookup_isSome_iff {name : String} {entries : List (String × α)} :
    (entries.lookup name).isSome = true ↔ name ∈ entries.map Prod.fst := by
  rw [List.lookup_isSome_iff, List.mem_map]
  exact exists_congr fun _ => and_congr_right fun _ => beq_iff_eq.trans eq_comm

theorem exists_lookup {name : String} {entries : List (String × α)} (h : name ∈ entries.map Prod.fst) :
    ∃ item, entries.lookup name = some item :=
  Option.isSome_iff_exists.mp (lookup_isSome_iff.mpr h)

theorem lookup_of_mem {entries : List (String × α)} (hnodup : (entries.map Prod.fst).Nodup)
    {entry : String × α} (h : entry ∈ entries) : entries.lookup entry.1 = some entry.2 := by
  obtain ⟨before, after, rfl⟩ := List.append_of_mem h
  rw [List.map_append, List.map_cons] at hnodup
  have hfresh := (List.nodup_append.mp hnodup).2.2
  refine List.lookup_eq_some_iff.mpr ⟨before, after, rfl, fun other hother => ?_⟩
  have hne := hfresh other.1 (List.mem_map_of_mem hother) entry.1 (List.mem_cons_self ..)
  exact bne_iff_ne.mpr (Ne.symm hne)

/-- Inserting what is there already changes nothing. -/
theorem Ascending.insert_eq_self {entries : List (String × α)} (hascending : Ascending entries)
    {name : String} {item : α} (h : entries.lookup name = some item) :
    Entries.insert name item entries = entries := by
  induction entries with
  | nil => cases h
  | cons head rest ih =>
      obtain ⟨key, old⟩ := head
      obtain ⟨hhead, hrest⟩ := List.pairwise_cons.mp hascending
      rw [Entries.insert]
      by_cases hname : name = key
      · rw [hname, List.lookup_cons_self] at h
        cases h
        rw [hname, if_neg (String.lt_irrefl key), if_pos rfl]
      · rw [List.lookup_cons, beq_eq_false_iff_ne.mpr hname] at h
        have hlt : key < name := hhead (name, item) (mem_of_lookup h)
        rw [if_neg (String.lt_asymm hlt), if_neg hname, ih hrest h]

/-- Of several pairs under one name the last one is found. -/
theorem lookup_ofList (name : String) (pairs : List (String × α)) :
    (ofList pairs).lookup name = pairs.reverse.lookup name := by
  have hfoldl (entries : List (String × α)) :
      (pairs.foldl (fun entries pair => insert pair.1 pair.2 entries) entries).lookup name =
        (pairs.reverse ++ entries).lookup name := by
    induction pairs generalizing entries with
    | nil => rfl
    | cons pair pairs ih =>
        obtain ⟨key, item⟩ := pair
        rw [List.foldl_cons, ih, List.reverse_cons, List.append_assoc, List.singleton_append,
          List.lookup_append, List.lookup_append, List.lookup_cons]
        by_cases hname : name = key
        · rw [hname, lookup_insert_self, beq_self_eq_true]
        · rw [lookup_insert_ne hname, beq_eq_false_iff_ne.mpr hname]
  rw [ofList, hfoldl, List.append_nil]

theorem lookup_ofList_isSome_iff {name : String} {pairs : List (String × α)} :
    ((ofList pairs).lookup name).isSome = true ↔ name ∈ pairs.map Prod.fst := by
  rw [lookup_ofList, lookup_isSome_iff, List.map_reverse, List.mem_reverse]

/-- An entry that comes after all others goes to the end. -/
theorem insert_of_forall_lt {entries : List (String × α)} {name : String}
    (h : ∀ entry ∈ entries, entry.1 < name) (item : α) :
    insert name item entries = entries ++ [(name, item)] := by
  induction entries with
  | nil => rfl
  | cons head rest ih =>
      have hlt := h head (List.mem_cons_self ..)
      rw [insert, if_neg (String.lt_asymm hlt), if_neg, ih]
      · rfl
      · exact fun entry hentry => h entry (List.mem_cons_of_mem _ hentry)
      · rintro rfl
        exact String.lt_irrefl _ hlt

theorem Ascending.foldl_insert {entries : List (String × α)} (h : Ascending entries)
    (pairs : List (String × α)) :
    Ascending (pairs.foldl (fun entries pair => Entries.insert pair.1 pair.2 entries) entries) := by
  induction pairs generalizing entries with
  | nil => exact h
  | cons pair pairs ih => exact ih (h.insert pair.1 pair.2)

theorem ascending_ofList (pairs : List (String × α)) : Ascending (ofList pairs) :=
  Ascending.foldl_insert List.Pairwise.nil pairs

theorem mem_foldl_insert {pairs entries : List (String × α)} {entry : String × α}
    (h : entry ∈ pairs.foldl (fun entries pair => insert pair.1 pair.2 entries) entries) :
    entry ∈ pairs ∨ entry ∈ entries := by
  induction pairs generalizing entries with
  | nil => exact .inr h
  | cons pair pairs ih =>
      rcases ih h with h | h
      · exact .inl (List.mem_cons_of_mem _ h)
      · rcases mem_insert h with rfl | h
        · exact .inl (List.mem_cons_self ..)
        · exact .inr h

theorem mem_of_mem_ofList {pairs : List (String × α)} {entry : String × α}
    (h : entry ∈ ofList pairs) : entry ∈ pairs :=
  (mem_foldl_insert h).resolve_right List.not_mem_nil

theorem foldl_insert_of_ascending {entries pairs : List (String × α)} (h : Ascending (entries ++ pairs)) :
    pairs.foldl (fun entries pair => insert pair.1 pair.2 entries) entries = entries ++ pairs := by
  induction pairs generalizing entries with
  | nil => simp
  | cons pair pairs ih =>
      have hbefore : ∀ entry ∈ entries, entry.1 < pair.1 := fun entry hentry =>
        (List.pairwise_append.mp h).2.2 entry hentry pair (List.mem_cons_self ..)
      rw [List.foldl_cons, insert_of_forall_lt hbefore, ih]
      · simp
      · simpa using h

/-- A record in order is the record of its entries. -/
theorem Ascending.ofList_eq {pairs : List (String × α)} (h : Ascending pairs) : ofList pairs = pairs := by
  have hall : Ascending ([] ++ pairs) := h
  rw [ofList, foldl_insert_of_ascending hall, List.nil_append]

theorem Ascending.nodup {entries : List (String × α)} (h : Ascending entries) :
    (entries.map Prod.fst).Nodup := by
  refine List.pairwise_map.mpr (h.imp fun hlt heq => ?_)
  rw [heq] at hlt
  exact String.lt_irrefl _ hlt

theorem nodup_of_names {entries : List (String × α)} (h : (entries.map Prod.fst).Nodup) : entries.Nodup :=
  (List.pairwise_map.mp h).imp fun hne heq => hne (congrArg Prod.fst heq)

/-- Two records in order with the same entries are the same. -/
theorem Ascending.eq_of_perm {left right : List (String × α)} (hleft : Ascending left)
    (hright : Ascending right) (h : left.Perm right) : left = right :=
  h.eq_of_pairwise (fun _ _ _ _ hab hba => absurd hba (String.lt_asymm hab)) hleft hright

/-- In a record in order the first entry of a kind is the one of the least name. -/
theorem Ascending.find?_eq_some_iff {entries : List (String × α)} (h : Ascending entries) {p : String × α → Bool}
    {entry : String × α} : entries.find? p = some entry ↔
      entry ∈ entries ∧ p entry = true ∧ ∀ other ∈ entries, other.1 < entry.1 → p other = false := by
  induction entries with
  | nil => simp
  | cons head rest ih =>
      obtain ⟨hhead, hrest⟩ := List.pairwise_cons.mp h
      rw [List.find?_cons]
      cases hp : p head with
      | true =>
          constructor
          · rintro ⟨⟩
            refine ⟨List.mem_cons_self .., hp, fun other hother hlt => ?_⟩
            rcases List.mem_cons.mp hother with rfl | hother
            · exact absurd hlt (String.lt_irrefl _)
            · exact absurd hlt (String.lt_asymm (hhead other hother))
          · rintro ⟨hentry, -, hfirst⟩
            rcases List.mem_cons.mp hentry with rfl | hentry
            · rfl
            · rw [hfirst head (List.mem_cons_self ..) (hhead entry hentry)] at hp
              cases hp
      | false =>
          rw [ih hrest]
          constructor
          · rintro ⟨hentry, hkind, hfirst⟩
            exact ⟨List.mem_cons_of_mem _ hentry, hkind, List.forall_mem_cons.mpr ⟨fun _ => hp, hfirst⟩⟩
          · rintro ⟨hentry, hkind, hfirst⟩
            refine ⟨(List.mem_cons.mp hentry).resolve_left ?_, hkind, (List.forall_mem_cons.mp hfirst).2⟩
            rintro rfl
            rw [hp] at hkind
            cases hkind

/-- Where no name is given twice, a record has the pairs it was made of. -/
theorem perm_ofList {pairs : List (String × α)} (h : (pairs.map Prod.fst).Nodup) : (ofList pairs).Perm pairs := by
  have hrecord := nodup_of_names (ascending_ofList pairs).nodup
  refine (List.perm_ext_iff_of_nodup hrecord (nodup_of_names h)).mpr fun pair => ?_
  refine ⟨mem_of_mem_ofList, fun hpair => mem_of_lookup ?_⟩
  have hreverse : (pairs.reverse.map Prod.fst).Nodup := by
    rw [List.map_reverse]
    exact (List.reverse_perm _).nodup_iff.mpr h
  rw [lookup_ofList]
  exact lookup_of_mem hreverse (List.mem_reverse.mpr hpair)

/-- Of pairs under names that are all different, a record keeps everything but their order. -/
theorem ofList_eq_iff_perm {pairs others : List (String × α)} (hpairs : (pairs.map Prod.fst).Nodup)
    (hothers : (others.map Prod.fst).Nodup) : ofList pairs = ofList others ↔ pairs.Perm others := by
  constructor
  · intro h
    exact (perm_ofList hpairs).symm.trans (h ▸ perm_ofList hothers)
  · intro h
    refine (ascending_ofList pairs).eq_of_perm (ascending_ofList others) ?_
    exact ((perm_ofList hpairs).trans h).trans (perm_ofList hothers).symm

/-- Under one list of names, each of them once, the items are told by looking them up. -/
theorem eq_of_lookup_eq {names : List String} {left right : List (String × α)}
    (hleft : left.map Prod.fst = names) (hright : right.map Prod.fst = names) (hnodup : names.Nodup)
    (h : ∀ name ∈ names, left.lookup name = right.lookup name) : left = right := by
  induction names generalizing left right with
  | nil => rw [List.map_eq_nil_iff.mp hleft, List.map_eq_nil_iff.mp hright]
  | cons name names ih =>
      obtain ⟨⟨_, item⟩, left, rfl, rfl, hleft'⟩ := List.map_eq_cons_iff.mp hleft
      obtain ⟨⟨_, item'⟩, right, rfl, rfl, hright'⟩ := List.map_eq_cons_iff.mp hright
      obtain ⟨hfresh, hnodup'⟩ := List.nodup_cons.mp hnodup
      have hitem := h _ (List.mem_cons_self ..)
      rw [List.lookup_cons_self, List.lookup_cons_self] at hitem
      have hrest : left = right := by
        refine ih hleft' hright' hnodup' fun other hother => ?_
        have hne := beq_eq_false_iff_ne.mpr (ne_of_mem_of_not_mem hother hfresh)
        have hlookup := h other (List.mem_cons_of_mem _ hother)
        rw [List.lookup_cons, List.lookup_cons, hne] at hlookup
        exact hlookup
      rw [Option.some.inj hitem, hrest]

/-! ### Records of images -/

/-- The record with the images of all items. -/
def mapItems (f : α → β) (entries : List (String × α)) : List (String × β) :=
  entries.map fun entry => (entry.1, f entry.2)

theorem names_mapItems (f : α → β) (entries : List (String × α)) :
    (mapItems f entries).map Prod.fst = entries.map Prod.fst := by
  rw [mapItems, List.map_map]
  rfl

theorem Ascending.mapItems {entries : List (String × α)} (h : Ascending entries) (f : α → β) :
    Ascending (mapItems f entries) :=
  List.pairwise_map.mpr h

theorem lookup_mapItems (f : α → β) (name : String) (entries : List (String × α)) :
    (mapItems f entries).lookup name = (entries.lookup name).map f := by
  induction entries with
  | nil => rfl
  | cons head rest ih =>
      obtain ⟨key, item⟩ := head
      rw [mapItems, List.map_cons, List.lookup_cons, List.lookup_cons]
      cases name == key with
      | true => rfl
      | false => exact ih

theorem insert_mapItems (f : α → β) (name : String) (item : α) (entries : List (String × α)) :
    mapItems f (insert name item entries) = insert name (f item) (mapItems f entries) := by
  induction entries with
  | nil => rfl
  | cons head rest ih =>
      rw [insert, mapItems, mapItems, List.map_cons, insert]
      split
      · rfl
      split
      · rfl
      · exact congrArg ((head.1, f head.2) :: ·) ih

theorem ofList_mapItems (f : α → β) (pairs : List (String × α)) :
    mapItems f (ofList pairs) = ofList (mapItems f pairs) := by
  have hfoldl (entries : List (String × α)) :
      mapItems f (pairs.foldl (fun entries pair => insert pair.1 pair.2 entries) entries) =
        (mapItems f pairs).foldl (fun entries pair => insert pair.1 pair.2 entries)
          (mapItems f entries) := by
    induction pairs generalizing entries with
    | nil => rfl
    | cons pair pairs ih => rw [List.foldl_cons, ih, insert_mapItems]; rfl
  exact hfoldl []

/-- Which names a record has in which order is a matter of the names alone. -/
theorem names_ofList {left : List (String × α)} {right : List (String × β)}
    (h : left.map Prod.fst = right.map Prod.fst) :
    (ofList left).map Prod.fst = (ofList right).map Prod.fst := by
  have hblank (entries : List (String × α)) :
      mapItems (fun _ => ()) entries = (entries.map Prod.fst).map (·, ()) := by
    rw [mapItems, List.map_map]
    rfl
  have hblank' (entries : List (String × β)) :
      mapItems (fun _ => ()) entries = (entries.map Prod.fst).map (·, ()) := by
    rw [mapItems, List.map_map]
    rfl
  rw [← names_mapItems (fun _ => ()) (ofList left), ← names_mapItems (fun _ => ()) (ofList right),
    ofList_mapItems, ofList_mapItems, hblank, hblank', h]

end StampedPrograms.Entries
