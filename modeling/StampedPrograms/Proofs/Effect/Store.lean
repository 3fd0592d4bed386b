import StampedPrograms.Effect.Store
import StampedPrograms.Proofs.Effect.Handler
import StampedPrograms.Proofs.Json.Equality

/-!
The storage and alike documents. Adding rows and querying treat alike documents alike. Looking up a
key does not: it compares ids deeply, so the key `1.0` misses the row with the id `1`. The storage
that compares the values of ids instead cannot tell alike documents apart.
-/

namespace StampedPrograms

def Write.image (write : Write) : String × String × Value :=
  (write.op, write.store, Value.inOrder write.value)

namespace Store

/-- The row has this id, however its numbers are written. -/
def hasId (key : Value) (row : Row) : Bool :=
  (row.lookup "id").any fun id => Value.ofJson id = key

/-- The first row whose id has the value of the key. -/
def getByValue (s : Store) (store : String) (key : Json) : Option Json :=
  ((s.rows store).find? (hasId (.ofJson key))).map .object

/-- The storage that compares ids by their values. -/
def byValue : Handler Store :=
  { handler with get store key s := (.ok (s.getByValue store key), s) }

/-- The same rows and writes but for the kinds of numbers. -/
structure Alike (s t : Store) : Prop where
  tables : Entries.mapItems (List.map Json.image) s.tables = Entries.mapItems (List.map Json.image) t.tables
  writes : s.writes.map Write.image = t.writes.map Write.image

variable {s t : Store}

theorem Alike.rows (h : s.Alike t) (store : String) :
    (s.rows store).map Json.image = (t.rows store).map Json.image := by
  have hlookup := congrArg (List.lookup store) h.tables
  rw [Entries.lookup_mapItems, Entries.lookup_mapItems] at hlookup
  rw [Store.rows, Store.rows]
  calc ((s.tables.lookup store).getD []).map Json.image
      = ((s.tables.lookup store).map (List.map Json.image)).getD [] :=
        (Option.getD_map (List.map Json.image) [] _).symm
    _ = ((t.tables.lookup store).map (List.map Json.image)).getD [] := by rw [hlookup]
    _ = ((t.tables.lookup store).getD []).map Json.image := Option.getD_map (List.map Json.image) [] _

/-! ### Looking up -/

theorem hasId_eq (key : Value) (row : Row) :
    hasId key row = ((Json.image row).lookup "id").any fun id => id.sorted = key := by
  rw [hasId, Json.image, Entries.lookup_mapItems]
  cases row.lookup "id" with
  | none => rfl
  | some id => rw [Option.map_some, Option.any_some, Option.any_some, Value.sorted_inOrder]

/-- Found rows are found again among alike rows. -/
theorem find?_image (key : Value) (rows : List Row) :
    (rows.find? (hasId key)).map Json.image =
      (rows.map Json.image).find? fun row => (row.lookup "id").any fun id => id.sorted = key := by
  rw [List.find?_map]
  congr 1
  congr 1
  funext row
  exact hasId_eq key row

theorem Alike.getByValue (h : s.Alike t) (store : String) {a b : Json} (hkey : a.Alike b) :
    (s.getByValue store a).map Value.inOrder = (t.getByValue store b).map Value.inOrder := by
  have hinOrder : Value.inOrder ∘ Json.object = Value.map ∘ Json.image := by
    funext row
    rw [Function.comp_apply, Value.inOrder, Value.inOrderMembers_eq_mapItems]
    rfl
  rw [Store.getByValue, Store.getByValue, Option.map_map, Option.map_map, hinOrder, ← Option.map_map,
    ← Option.map_map, find?_image, find?_image, h.rows store, hkey.ofJson_eq]

/-! ### Adding a row -/

theorem isId_eq {a b : Json} (h : a.Alike b) : isId a = isId b := by
  cases h.parts with
  | number same =>
      rw [isId, isId, Binary64.sameNumber_zero, Binary64.sameNumber_zero,
        (Binary64.unsignedZero_eq_iff.mp same).1]
  | _ => rfl

theorem image_identified (count : Nat) {row other : Row} (h : Json.image row = Json.image other) :
    Json.image (identified count row) = Json.image (identified count other) := by
  have hid : (row.lookup "id").map Value.inOrder = (other.lookup "id").map Value.inOrder :=
    (Json.alike_object.mpr h).member? "id"
  have hany : (row.lookup "id").any isId = (other.lookup "id").any isId := by
    rcases Json.option_alike hid with ⟨hx, hy⟩ | ⟨x, y, hx, hy, hxy⟩
    · rw [hx, hy]
    · rw [hx, hy, Option.any_some, Option.any_some, isId_eq hxy]
  rw [identified, identified, hany]
  split
  · exact h
  · rw [Json.image, Entries.insert_mapItems, Json.image, Entries.insert_mapItems]
    exact congrArg (Entries.insert "id" _) h

theorem Alike.append (h : s.Alike t) (store : String) {row other : Row}
    (hrow : Json.image row = Json.image other) : (s.append store row).Alike (t.append store other) := by
  constructor
  · have hrows : (s.rows store ++ [row]).map Json.image = (t.rows store ++ [other]).map Json.image := by
      rw [List.map_append, List.map_append, h.rows store, List.map_singleton, List.map_singleton, hrow]
    rw [Store.append, Store.append, Entries.insert_mapItems, Entries.insert_mapItems, hrows, h.tables]
  · have hvalue : Value.inOrder (.object row) = Value.inOrder (.object other) :=
      Json.alike_object.mpr hrow
    rw [Store.append, Store.append, List.map_append, List.map_append, h.writes]
    exact congrArg (fun v => _ ++ [("idb.put", store, v)]) hvalue

theorem Alike.put (h : s.Alike t) (store : String) {a b : Json} (hvalue : a.Alike b) :
    Answered Json.Alike Store.Alike (byValue.put store a s) (byValue.put store b t) := by
  cases hvalue.parts with
  | @object row other same =>
      have hcount : (s.rows store).length = (t.rows store).length := by
        rw [← List.length_map Json.image, h.rows store, List.length_map]
      have hrow : Json.image (identified (s.rows store).length row) =
          Json.image (identified (t.rows store).length other) := by
        rw [hcount, image_identified _ same]
      exact ⟨.ok (Json.alike_object.mpr hrow), h.append store hrow⟩
  | _ => exact ⟨.error _, h⟩

/-! ### Querying -/

theorem strings_eq (otherwise : Defect) {items others : List Json}
    (h : items.map Value.inOrder = others.map Value.inOrder) :
    Json.strings otherwise items = Json.strings otherwise others := by
  induction items generalizing others with
  | nil =>
      cases others with
      | nil => rfl
      | cons other others => cases h
  | cons item items ih =>
      cases others with
      | nil => cases h
      | cons other others =>
          obtain ⟨hfirst, hrest⟩ := List.cons.inj h
          have hrest := ih hrest
          rw [Json.strings, Json.strings] at hrest ⊢
          rw [List.mapM_cons, List.mapM_cons, hrest]
          have hfirst : item.Alike other := hfirst
          cases hfirst.parts <;> rfl

theorem selection_eq {a b : Json} (h : a.Alike b) : selection a = selection b := by
  rw [selection, selection]
  rcases Json.option_alike (h.member? "SELECT") with ⟨hx, hy⟩ | ⟨x, y, hx, hy, hselect⟩
  · rw [hx, hy]
  · rw [hx, hy, Option.bind_some, Option.bind_some]
    rcases Json.option_alike (hselect.present? "fields") with ⟨hx, hy⟩ | ⟨x, y, hx, hy, hfields⟩
    · rw [hx, hy]
    · rw [hx, hy]
      cases hfields.parts with
      | array same => exact strings_eq .selectionEntry same
      | _ => rfl

theorem rowLimit_eq {a b : Json} (h : a.Alike b) (available : Nat) :
    rowLimit a available = rowLimit b available := by
  rw [rowLimit, rowLimit]
  rcases Json.option_alike (h.present? "LIMIT") with ⟨hx, hy⟩ | ⟨x, y, hx, hy, hlimit⟩
  · rw [hx, hy]
  · rw [hx, hy]
    cases hlimit.parts with
    | @number m n same =>
        obtain ⟨hmagnitude, hsign⟩ := Binary64.unsignedZero_eq_iff.mp same
        have hnegative : (m.toBinary64.negative = true ∧ m.toBinary64.magnitude ≠ 0) ↔
            (n.toBinary64.negative = true ∧ n.toBinary64.magnitude ≠ 0) := by
          rw [← hmagnitude]
          rcases hsign with hsign | hzero
          · rw [hsign]
          · exact ⟨fun h => absurd hzero h.2, fun h => absurd hzero h.2⟩
        simp only [Json.asBinary64?, hnegative]
        rw [Binary64.whole, Binary64.whole, hmagnitude]
    | _ => rfl

/-- The selected fields by their values. -/
theorem image_selected (fields : List String) (row : Row) :
    Json.image (fields.filterMap fun field => (row.lookup field).map fun item => (field, item)) =
      fields.filterMap fun field => ((Json.image row).lookup field).map fun item => (field, item) := by
  rw [Json.image, Entries.mapItems, List.map_filterMap]
  congr 1
  funext field
  rw [Json.image, Entries.lookup_mapItems, Option.map_map, Option.map_map]
  rfl

theorem project_alike (fields : List String) {row other : Row} (h : Json.image row = Json.image other) :
    (project fields row).Alike (project fields other) := by
  rw [project, project]
  split
  · exact Json.alike_object.mpr h
  · apply Json.alike_ofPairs
    rw [image_selected, image_selected, h]

theorem Alike.query (h : s.Alike t) (store : String) {a b : Json} (hspec : a.Alike b) :
    Related (fun xs ys => xs.map Value.inOrder = ys.map Value.inOrder) (s.query store a)
      (t.query store b) := by
  have hcount : (s.rows store).length = (t.rows store).length := by
    rw [← List.length_map Json.image, h.rows store, List.length_map]
  rw [Store.query, Store.query, selection_eq hspec]
  refine .bind_same _ fun fields => ?_
  dsimp only
  rw [rowLimit_eq hspec, hcount]
  refine .bind_same _ fun limit => .ok ?_
  have hrows : ((s.rows store).take limit).map Json.image = ((t.rows store).take limit).map Json.image := by
    rw [List.map_take, List.map_take, h.rows store]
  rw [List.map_map, List.map_map]
  exact map_eq_of_map_eq (fun _ _ hrow => project_alike fields hrow) hrows

/-- The storage that compares ids by their values treats alike documents alike. -/
theorem byValue_respects : byValue.Respects Alike where
  get store _ _ _ _ hkey h := ⟨.ok (h.getByValue store hkey), h⟩
  put store _ _ _ _ hvalue h := h.put store hvalue
  query store _ _ _ _ hspec h := ⟨h.query store hspec, h⟩

end Store

end StampedPrograms
