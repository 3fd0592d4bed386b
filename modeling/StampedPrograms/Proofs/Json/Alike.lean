import StampedPrograms.Json.Readable
import StampedPrograms.Proofs.Value.Canonical

/-!
Documents that differ in nothing but how their numbers are written: `1` and `1.0` are alike, and so
are two integers with one nearest double. Documents with all members in order are alike exactly when
they stand for the same canonical value.
-/

namespace StampedPrograms

/-- Items that agree under one map agree item by item under every map that tells no more apart. -/
theorem map_eq_of_map_eq {α β γ : Type} {f : α → β} {g : α → γ} (hfg : ∀ a b, f a = f b → g a = g b)
    {xs ys : List α} (h : xs.map f = ys.map f) : xs.map g = ys.map g := by
  induction xs generalizing ys with
  | nil =>
      cases ys with
      | nil => rfl
      | cons y ys => cases h
  | cons x xs ih =>
      cases ys with
      | nil => cases h
      | cons y ys =>
          obtain ⟨hfirst, hrest⟩ := List.cons.inj h
          rw [List.map_cons, List.map_cons, hfg x y hfirst, ih hrest]

namespace Value

mutual

/-- The value of a document, with the members of its objects as they stand. -/
def inOrder : Json → Value
  | .null => .null
  | .bool b => .bool b
  | .number n => ofNumber n
  | .string s => .string s
  | .array items => .list (inOrderItems items)
  | .object members => .map (inOrderMembers members)

def inOrderItems : List Json → List Value
  | [] => []
  | item :: items => inOrder item :: inOrderItems items

def inOrderMembers : List (String × Json) → List (String × Value)
  | [] => []
  | (name, item) :: members => (name, inOrder item) :: inOrderMembers members

end

theorem inOrderItems_eq_map (items : List Json) : inOrderItems items = items.map inOrder := by
  induction items with
  | nil => rfl
  | cons item items ih => rw [inOrderItems, ih, List.map_cons]

theorem inOrderMembers_eq_mapItems (members : List (String × Json)) :
    inOrderMembers members = Entries.mapItems inOrder members := by
  induction members with
  | nil => rfl
  | cons member members ih => rw [inOrderMembers, ih]; rfl

mutual

/-- The value with the entries of all maps in it put in order. -/
def sorted : Value → Value
  | .null => .null
  | .bool b => .bool b
  | .number x => .number x
  | .string s => .string s
  | .list items => .list (sortedItems items)
  | .map entries => ofPairs (sortedEntries entries)

def sortedItems : List Value → List Value
  | [] => []
  | item :: items => sorted item :: sortedItems items

def sortedEntries : List (String × Value) → List (String × Value)
  | [] => []
  | (name, item) :: entries => (name, sorted item) :: sortedEntries entries

end

mutual

theorem sorted_inOrder : ∀ doc : Json, (inOrder doc).sorted = ofJson doc
  | .null => rfl
  | .bool _ => rfl
  | .number _ => rfl
  | .string _ => rfl
  | .array items => by rw [inOrder, sorted, ofJson, sorted_inOrderItems items]
  | .object members => by rw [inOrder, sorted, ofJson, sorted_inOrderMembers members]

theorem sorted_inOrderItems : ∀ items : List Json, sortedItems (inOrderItems items) = ofItems items
  | [] => rfl
  | item :: items => by
      rw [inOrderItems, sortedItems, ofItems, sorted_inOrder item, sorted_inOrderItems items]

theorem sorted_inOrderMembers :
    ∀ members : List (String × Json), sortedEntries (inOrderMembers members) = ofMembers members
  | [] => rfl
  | (name, item) :: members => by
      rw [inOrderMembers, sortedEntries, ofMembers, sorted_inOrder item, sorted_inOrderMembers members]

end

end Value

namespace Json

/-- All objects in the document list their members in order. -/
inductive Ordered : Json → Prop where
  | null : Ordered .null
  | bool (b : Bool) : Ordered (.bool b)
  | number (n : JsonNumber) : Ordered (.number n)
  | string (s : String) : Ordered (.string s)
  | array {items : List Json} (ordered : ∀ item ∈ items, Ordered item) : Ordered (.array items)
  | object {members : List (String × Json)} (ascending : Entries.Ascending members)
      (ordered : ∀ member ∈ members, Ordered member.2) : Ordered (.object members)

theorem Ordered.inOrder_eq {doc : Json} (h : Ordered doc) : Value.inOrder doc = Value.ofJson doc := by
  induction h with
  | null => rfl
  | bool b => rfl
  | number n => rfl
  | string s => rfl
  | @array items _ ih =>
      rw [Value.inOrder, Value.ofJson, Value.inOrderItems_eq_map, Value.ofItems_eq_map]
      exact congrArg Value.list (List.map_congr_left ih)
  | @object members ascending _ ih =>
      have hmembers : Entries.mapItems Value.inOrder members =
          Entries.mapItems Value.ofJson members := by
        refine List.map_congr_left fun member hmember => ?_
        rw [ih member hmember]
      rw [Value.inOrder, Value.ofJson, Value.inOrderMembers_eq_mapItems, Value.ofMembers_eq_map, hmembers]
      exact congrArg Value.map (ascending.mapItems Value.ofJson).ofList_eq.symm

theorem Ordered.ofPairs {pairs : List (String × Json)} (h : ∀ pair ∈ pairs, Ordered pair.2) :
    Ordered (ofPairs pairs) :=
  .object (Entries.ascending_ofList pairs) fun entry hentry => h entry (Entries.mem_of_mem_ofList hentry)

theorem Ordered.lookup {members : List (String × Json)} (h : Ordered (.object members)) {name : String}
    {item : Json} (hitem : members.lookup name = some item) : item.Ordered := by
  cases h with
  | object ascending ordered => exact ordered _ (Entries.mem_of_lookup hitem)

theorem Ordered.insert {members : List (String × Json)} (h : Ordered (.object members)) (name : String)
    {item : Json} (hitem : item.Ordered) : Ordered (.object (Entries.insert name item members)) := by
  cases h with
  | object ascending ordered =>
      refine .object (ascending.insert name item) fun member hmember => ?_
      rcases Entries.mem_insert hmember with rfl | hmember
      · exact hitem
      · exact ordered member hmember

theorem Ordered.member? {doc : Json} (h : doc.Ordered) {name : String} {found : Json}
    (hfound : doc.member? name = some found) : found.Ordered := by
  cases doc with
  | object members => exact h.lookup hfound
  | _ => cases hfound

/-- The same document but for the kinds of its numbers. -/
def Alike (a b : Json) : Prop :=
  Value.inOrder a = Value.inOrder b

theorem Alike.ofJson_eq {a b : Json} (h : Alike a b) : Value.ofJson a = Value.ofJson b := by
  rw [← Value.sorted_inOrder a, ← Value.sorted_inOrder b, h]

theorem alike_of_ofJson_eq {a b : Json} (ha : Ordered a) (hb : Ordered b)
    (h : Value.ofJson a = Value.ofJson b) : Alike a b := by
  rw [Alike, ha.inOrder_eq, hb.inOrder_eq, h]

/-- Only null stands for null. -/
theorem eq_null_of_ofJson {doc : Json} (h : Value.ofJson doc = .null) : doc = .null := by
  cases doc <;> simp_all [Value.ofJson, Value.ofNumber, Value.ofPairs]

/-- The members of a record with the values of their documents. -/
def image (members : List (String × Json)) : List (String × Value) :=
  Entries.mapItems Value.inOrder members

/-- How two documents can be alike. -/
inductive AlikeParts : Json → Json → Prop where
  | null : AlikeParts .null .null
  | bool (b : Bool) : AlikeParts (.bool b) (.bool b)
  | number {m n : JsonNumber} (same : m.toBinary64.unsignedZero = n.toBinary64.unsignedZero) :
      AlikeParts (.number m) (.number n)
  | string (s : String) : AlikeParts (.string s) (.string s)
  | array {items others : List Json} (same : items.map Value.inOrder = others.map Value.inOrder) :
      AlikeParts (.array items) (.array others)
  | object {members others : List (String × Json)} (same : image members = image others) :
      AlikeParts (.object members) (.object others)

theorem Alike.parts {a b : Json} (h : Alike a b) : AlikeParts a b := by
  unfold Alike at h
  cases a <;> cases b <;> simp only [Value.inOrder, Value.ofNumber, reduceCtorEq] at h
  · exact .null
  · cases h; exact .bool _
  · exact .number (Value.number.inj h)
  · cases h; exact .string _
  · rw [Value.inOrderItems_eq_map, Value.inOrderItems_eq_map] at h
    exact .array (Value.list.inj h)
  · rw [Value.inOrderMembers_eq_mapItems, Value.inOrderMembers_eq_mapItems] at h
    exact .object (Value.map.inj h)

theorem alike_object {members others : List (String × Json)} :
    Alike (.object members) (.object others) ↔ image members = image others := by
  rw [Alike, Value.inOrder, Value.inOrder, Value.inOrderMembers_eq_mapItems,
    Value.inOrderMembers_eq_mapItems]
  exact ⟨Value.map.inj, congrArg Value.map⟩

theorem alike_array {items others : List Json} :
    Alike (.array items) (.array others) ↔ items.map Value.inOrder = others.map Value.inOrder := by
  rw [Alike, Value.inOrder, Value.inOrder, Value.inOrderItems_eq_map, Value.inOrderItems_eq_map]
  exact ⟨Value.list.inj, congrArg Value.list⟩

theorem inOrder_ofPairs (pairs : List (String × Json)) :
    Value.inOrder (ofPairs pairs) = .map (Entries.ofList (image pairs)) := by
  rw [ofPairs, Value.inOrder, Value.inOrderMembers_eq_mapItems, Entries.ofList_mapItems, image]

theorem alike_ofPairs {pairs others : List (String × Json)} (h : image pairs = image others) :
    (ofPairs pairs).Alike (ofPairs others) := by
  rw [Alike, inOrder_ofPairs, inOrder_ofPairs, h]

/-! ### Reading alike documents -/

/-- Members of one name are alike or missing in both documents. -/
theorem Alike.member? {a b : Json} (h : Alike a b) (name : String) :
    (a.member? name).map Value.inOrder = (b.member? name).map Value.inOrder := by
  cases h.parts with
  | object same =>
      rw [Json.member?, Json.member?, ← Entries.lookup_mapItems, ← Entries.lookup_mapItems]
      exact congrArg (List.lookup name) same
  | _ => rfl

theorem option_alike {x y : Option Json} (h : x.map Value.inOrder = y.map Value.inOrder) :
    (x = none ∧ y = none) ∨ ∃ a b, x = some a ∧ y = some b ∧ Alike a b := by
  cases x with
  | none =>
      cases y with
      | none => exact .inl ⟨rfl, rfl⟩
      | some b => cases h
  | some a =>
      cases y with
      | none => cases h
      | some b => exact .inr ⟨a, b, rfl, rfl, Option.some.inj h⟩

theorem Alike.present? {a b : Json} (h : Alike a b) (name : String) :
    (a.present? name).map Value.inOrder = (b.present? name).map Value.inOrder := by
  rw [Json.present?, Json.present?]
  rcases option_alike (h.member? name) with ⟨hx, hy⟩ | ⟨x, y, hx, hy, hxy⟩
  · rw [hx, hy]
  · rw [hx, hy]
    have hsame : Value.inOrder x = Value.inOrder y := hxy
    cases hxy.parts <;> simp [hsame]

end Json

end StampedPrograms
