import StampedPrograms.Effect.Handler
import StampedPrograms.Json.Readable
import StampedPrograms.Digest

/-!
A storage in memory: named stores of rows, and a trace of what was written. Rows are only ever
added, at the end of their store.
-/

namespace StampedPrograms

/-- A row is the members of an object. -/
abbrev Row := List (String × Json)

/-- What was written, with the id it was given. -/
structure Write where
  op : String := "idb.put"
  store : String
  value : Json

instance : Documented Write where
  toJson write := .ofPairs [
    ("op", .string write.op), ("store", .string write.store), ("value", write.value)]

structure Store where
  tables : List (String × List Row) := []
  writes : List Write := []

namespace Store

/-- The rows of a store; a store that was never named has none. -/
def rows (s : Store) (store : String) : List Row :=
  (s.tables.lookup store).getD []

/-- The rows of a store in a seed, which must be objects; what is no list leaves the store empty. -/
def seedRows (store : String) : Json → Except Error (List Row)
  | .array docs => docs.mapM fun
      | .object row => .ok row
      | _ => .error (.validation (.seedRow store))
  | _ => .ok []

/-- The stores of a seed. -/
def seedTables (members : List (String × Json)) : Except Error (List (String × List Row)) :=
  members.mapM fun (store, doc) => do return (store, ← seedRows store doc)

/-- The storage that a seed describes; null describes the empty one. -/
def ofSeed : Json → Except Error Store
  | .null => .ok {}
  | .object members => do return { tables := Entries.ofList (← seedTables members) }
  | _ => .error (.validation .seedNotObject)

/-- The first row with this id. -/
def get (s : Store) (store : String) (key : Json) : Option Json :=
  ((s.rows store).find? fun row => (row.lookup "id").any fun id => id.equal key).map .object

/-- Null, false, a zero and the empty string are no ids. -/
def isId : Json → Bool
  | .null => false
  | .bool b => b
  | .number n => !n.toBinary64.sameNumber .zero
  | .string s => !s.isEmpty
  | .array _ => true
  | .object _ => true

/-- The row with an id: its own, or else its place among the rows it is added to. -/
def identified (count : Nat) (row : Row) : Row :=
  if (row.lookup "id").any isId then row
  else Entries.insert "id" (.string (count + 1).repr) row

/-- The storage with one more row. -/
def append (s : Store) (store : String) (row : Row) : Store where
  tables := Entries.insert store (s.rows store ++ [row]) s.tables
  writes := s.writes ++ [{ store, value := .object row }]

/-- Adds a row, and gives it an id if it has none. -/
def put (s : Store) (store : String) : Json → Except Error (Json × Store)
  | .object row =>
      let row := identified (s.rows store).length row
      .ok (.object row, s.append store row)
  | _ => .error (.validation .recordNotObject)

/-- The fields that a query selects; without any it selects whole rows. -/
def selection (spec : Json) : Except Error (List String) :=
  match (spec.member? "SELECT").bind fun select => select.present? "fields" with
  | none => .ok []
  | some (.array docs) => Json.strings .selectionEntry docs
  | some _ => .error (.validation .selectionNotArray)

/-- How many of so many rows a query asks for; a limit counts up to its point. -/
def rowLimit (spec : Json) (available : Nat) : Except Error Nat :=
  match spec.present? "LIMIT" with
  | none => .ok available
  | some found =>
      match found.asBinary64? with
      | none => .error (.validation .limit)
      | some x =>
          if x.negative = true ∧ x.magnitude ≠ 0 then .error (.validation .limit) else .ok x.whole

/-- The selected fields that the row has. -/
def project (fields : List String) (row : Row) : Json :=
  if fields.isEmpty then .object row
  else .ofPairs (fields.filterMap fun field => (row.lookup field).map fun item => (field, item))

/-- The rows that a query asks for, in their order. -/
def query (s : Store) (store : String) (spec : Json) : Except Error (List Json) := do
  let fields ← selection spec
  let rows := s.rows store
  let limit ← rowLimit spec rows.length
  return (rows.take limit).map (project fields)

/-- The storage as a handler: reading changes nothing, and neither does a refused row. -/
def handler : Handler Store where
  get store key s := (.ok (s.get store key), s)
  put store value s :=
    match s.put store value with
    | .ok (record, next) => (.ok record, next)
    | .error e => (.error e, s)
  query store spec s := (s.query store spec, s)

end Store

end StampedPrograms
