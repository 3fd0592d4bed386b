import StampedPrograms.Proofs.Effect.Store

/-!
Keys spelled as the storage spells them. Every key has a spelling with which the storage finds what it
would find if it compared ids by their values.
-/

namespace StampedPrograms

namespace Store

/-- All rows are documents with their members in order. -/
def Ordered (s : Store) : Prop :=
  ∀ store, ∀ row ∈ s.rows store, (Json.object row).Ordered

theorem ordered_seedRows {store : String} {doc : Json} (hdoc : doc.Ordered) {rows : List Row}
    (h : seedRows store doc = .ok rows) {row : Row} (hrow : row ∈ rows) : (Json.object row).Ordered := by
  cases hdoc with
  | array ordered =>
      obtain ⟨item, hitem, hread⟩ := exists_of_mem_mapM h hrow
      cases item with
      | object members =>
          cases hread
          exact ordered _ hitem
      | _ => cases hread
  | _ =>
      cases h
      cases hrow

theorem ordered_ofSeed {seed : Json} (hseed : seed.Ordered) {s : Store} (h : ofSeed seed = .ok s) :
    s.Ordered := by
  intro store row hrow
  cases hseed with
  | null =>
      cases h
      cases hrow
  | @object members _ ordered =>
      obtain ⟨tables, htables, h⟩ := bind_eq_ok.mp h
      cases h
      rw [rows] at hrow
      dsimp only at hrow
      cases hfound : (Entries.ofList tables).lookup store with
      | none =>
          rw [hfound] at hrow
          cases hrow
      | some found =>
          rw [hfound] at hrow
          have hmem := Entries.mem_of_mem_ofList (Entries.mem_of_lookup hfound)
          obtain ⟨⟨name, doc⟩, hmember, hread⟩ := exists_of_mem_mapM htables hmem
          obtain ⟨read, hread, heq⟩ := bind_eq_ok.mp hread
          cases heq
          exact ordered_seedRows (ordered _ hmember) hread hrow
  | _ => cases h

theorem Ordered.append {s : Store} (h : s.Ordered) (store : String) {row : Row}
    (hrow : (Json.object row).Ordered) : (s.append store row).Ordered := by
  intro other found hfound
  rw [rows, Store.append] at hfound
  by_cases hother : other = store
  · rw [hother, Entries.lookup_insert_self, Option.getD_some] at hfound
    rcases List.mem_append.mp hfound with hfound | hfound
    · exact h store found hfound
    · rw [List.mem_singleton.mp hfound]
      exact hrow
  · rw [Entries.lookup_insert_ne hother] at hfound
    exact h other found hfound

theorem ordered_identified (count : Nat) {row : Row} (h : (Json.object row).Ordered) :
    (Json.object (identified count row)).Ordered := by
  rw [identified]
  split
  · exact h
  · exact h.insert "id" (.string _)

/-! ### The spelling of a key -/

/-- The key as the storage spells it: the id of the first row that has its value. -/
def spelling (s : Store) (store : String) (key : Json) : Json :=
  (((s.rows store).find? (hasId (.ofJson key))).bind fun row => row.lookup "id").getD key

/-- Either some row has the value of the key, or the key stays as it is. -/
theorem spelling_cases (s : Store) (store : String) (key : Json) :
    (∃ row id, (s.rows store).find? (hasId (.ofJson key)) = some row ∧ row ∈ s.rows store ∧
      row.lookup "id" = some id ∧ Value.ofJson id = .ofJson key ∧ s.spelling store key = id) ∨
    ((s.rows store).find? (hasId (.ofJson key)) = none ∧ s.spelling store key = key) := by
  cases hfound : (s.rows store).find? (hasId (.ofJson key)) with
  | none =>
      right
      refine ⟨rfl, ?_⟩
      rw [spelling, hfound]
      rfl
  | some row =>
      left
      have hid := List.find?_some hfound
      rw [hasId, Option.any_eq_true] at hid
      obtain ⟨id, hlookup, hvalue⟩ := hid
      refine ⟨row, id, rfl, List.mem_of_find?_eq_some hfound, hlookup, of_decide_eq_true hvalue, ?_⟩
      rw [spelling, hfound, Option.bind_some, hlookup, Option.getD_some]

theorem ofJson_spelling (s : Store) (store : String) (key : Json) :
    Value.ofJson (s.spelling store key) = .ofJson key := by
  rcases s.spelling_cases store key with ⟨row, id, _, _, _, hvalue, hspelling⟩ | ⟨_, hspelling⟩
  · rw [hspelling, hvalue]
  · rw [hspelling]

theorem ordered_spelling {s : Store} (hs : s.Ordered) (store : String) {key : Json} (hkey : key.Ordered) :
    (s.spelling store key).Ordered := by
  rcases s.spelling_cases store key with ⟨row, id, _, hmem, hlookup, _, hspelling⟩ | ⟨_, hspelling⟩
  · rw [hspelling]
    exact (hs store row hmem).lookup hlookup
  · rw [hspelling]
    exact hkey

theorem alike_spelling {s : Store} (hs : s.Ordered) (store : String) {key : Json} (hkey : key.Ordered) :
    (s.spelling store key).Alike key :=
  Json.alike_of_ofJson_eq (ordered_spelling hs store hkey) hkey (ofJson_spelling s store key)

/-- A sharper test that holds of the first hit has the same first hit. -/
theorem find?_eq_of_imp {α : Type} {p q : α → Bool} {items : List α} (himp : ∀ a, q a = true → p a = true)
    (hfirst : ∀ a, items.find? p = some a → q a = true) : items.find? q = items.find? p := by
  induction items with
  | nil => rfl
  | cons item items ih =>
      rw [List.find?_cons, List.find?_cons]
      rw [List.find?_cons] at hfirst
      cases hp : p item with
      | true =>
          rw [hp] at hfirst
          rw [hfirst item rfl]
      | false =>
          rw [hp] at hfirst
          have hq : q item = false := by
            rw [Bool.eq_false_iff]
            intro hq
            rw [himp item hq] at hp
            cases hp
          rw [hq]
          exact ih hfirst

/-- The storage finds for its own spelling what has the value of the key. -/
theorem get_spelling (s : Store) (store : String) (key : Json) :
    s.get store (s.spelling store key) = s.getByValue store key := by
  rw [Store.get, getByValue]
  congr 1
  apply find?_eq_of_imp
  · intro row hrow
    rw [Option.any_eq_true] at hrow
    obtain ⟨id, hlookup, hequal⟩ := hrow
    rw [hasId, hlookup, Option.any_some, decide_eq_true_eq, ← s.ofJson_spelling store key]
    exact (Json.alike_of_equal _ _ hequal).ofJson_eq
  · intro row hrow
    rcases s.spelling_cases store key with ⟨first, id, hfirst, _, hlookup, _, hspelling⟩ | ⟨hnone, _⟩
    · rw [hrow] at hfirst
      cases hfirst
      rw [hlookup, Option.any_some, hspelling]
      exact id.equal_self
    · rw [hrow] at hnone
      cases hnone

end Store

end StampedPrograms
