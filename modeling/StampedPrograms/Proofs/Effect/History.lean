import StampedPrograms.Effect.Store
import StampedPrograms.Proofs.Binary64.Integers
import StampedPrograms.Proofs.Error
import StampedPrograms.Proofs.Json.Equality

/-!
The history of a storage. Whatever calls it received and however they ended, a store holds its rows of the seed
and behind them the records that were written to it, in the order of the trace: a call either stores one record
and adds it to the trace, or it changes neither rows nor trace. It makes no difference whether the storage opens
the stores it is only asked about.
-/

namespace StampedPrograms

section

variable {σ : Type}

/-- The states that calls lead to from here, whatever they answer. -/
inductive Handler.Reachable (handler : Handler σ) (start : σ) : σ → Prop where
  | start : Reachable handler start start
  | get {s : σ} (h : Reachable handler start s) (store : String) (key : Json) :
      Reachable handler start (handler.get store key s).2
  | put {s : σ} (h : Reachable handler start s) (store : String) (value : Json) :
      Reachable handler start (handler.put store value s).2
  | query {s : σ} (h : Reachable handler start s) (store : String) (spec : Json) :
      Reachable handler start (handler.query store spec s).2

end

namespace Store

/-! ### Ids -/

/-- What is no id: null, false, the zeros and the empty text. -/
inductive NoId : Json → Prop where
  | null : NoId .null
  | no : NoId (.bool false)
  | integer (fits : Fits64 0) : NoId (.number (.int 0 fits))
  | double {x : Binary64} (finite : x.IsFinite) (zero : x.magnitude = 0) : NoId (.number (.float x finite))
  | empty : NoId (.string "")

theorem isId_number {n : JsonNumber} : isId (.number n) = true ↔ n.toBinary64.magnitude ≠ 0 := by
  rw [isId, Binary64.sameNumber_zero]
  simp

theorem isId_iff {doc : Json} : isId doc = true ↔ ¬ NoId doc := by
  cases doc with
  | null => exact iff_of_false Bool.false_ne_true fun h => h .null
  | bool b =>
      cases b with
      | false => exact iff_of_false Bool.false_ne_true fun h => h .no
      | true => exact iff_of_true rfl (by rintro ⟨⟩)
  | number n =>
      rw [isId_number]
      cases n with
      | int i fits =>
          rw [JsonNumber.toBinary64, Ne, Binary64.magnitude_ofInt_eq_zero]
          constructor
          · rintro hi (_ | _)
            exact hi rfl
          · rintro hid rfl
            exact hid (.integer fits)
      | float x finite =>
          constructor
          · rintro hx (_ | _ | _ | ⟨_, hzero⟩)
            exact hx hzero
          · exact fun hid hzero => hid (.double finite hzero)
  | string s =>
      rw [isId, Bool.not_eq_true', ← Bool.not_eq_true, String.isEmpty_iff]
      constructor
      · rintro hs ⟨⟩
        exact hs rfl
      · rintro hid rfl
        exact hid .empty
  | array items => exact iff_of_true rfl (by rintro ⟨⟩)
  | object members => exact iff_of_true rfl (by rintro ⟨⟩)

theorem isId_repr (n : Nat) : isId (.string n.repr) = true := by
  rw [isId, Bool.not_eq_true', ← Bool.not_eq_true, String.isEmpty_iff]
  intro h
  have hdigits : (Nat.toDigits 10 n) = "".toList := by
    rw [← h, Nat.repr, String.toList_ofList]
  exact Nat.toDigits_ne_nil hdigits

/-- A record as it is stored: an object with the members that were handed over, but for the id if that was none.
-/
structure Stored (value record : Json) : Prop where
  object : ∃ row, value = .object row
  others : ∀ name, name ≠ "id" → record.member? name = value.member? name
  kept : ∀ id, value.member? "id" = some id → ¬ NoId id → record = value
  id : ∃ id, record.member? "id" = some id ∧ ¬ NoId id

theorem stored_identified (count : Nat) (row : Row) : Stored (.object row) (.object (identified count row)) := by
  rw [identified]
  split
  · next hid =>
      obtain ⟨id, hlookup, hid⟩ := Option.any_eq_true _ _ |>.mp hid
      exact ⟨⟨row, rfl⟩, fun _ _ => rfl, fun _ _ _ => rfl, id, hlookup, isId_iff.mp hid⟩
  · next hnone =>
      refine ⟨⟨row, rfl⟩, fun name hname => Entries.lookup_insert_ne hname _ row, fun id hlookup hid => ?_, ?_⟩
      · have hlookup : row.lookup "id" = some id := hlookup
        rw [hlookup, Option.any_some] at hnone
        exact absurd (isId_iff.mpr hid) hnone
      · exact ⟨_, Entries.lookup_insert_self "id" _ row, isId_iff.mp (isId_repr (count + 1))⟩

/-! ### Opening stores -/

/-- The storage with a place for the rows of this store, empty if it had none. -/
def opened (s : Store) (store : String) : Store :=
  { s with tables := Entries.insert store (s.rows store) s.tables }

/-- The storage that opens every store it looks into, even if the limit of a query then turns out to be none. -/
def opening : Handler Store where
  get store key s := (.ok (s.get store key), s.opened store)
  put := handler.put
  query store spec s :=
    match selection spec with
    | .ok _ => (s.query store spec, s.opened store)
    | .error e => (.error e, s)

/-- The same rows under every name, and the same trace. -/
structure Same (s t : Store) : Prop where
  rows : ∀ store, t.rows store = s.rows store
  writes : t.writes = s.writes

theorem Same.refl (s : Store) : Same s s := ⟨fun _ => rfl, rfl⟩

theorem Same.symm {s t : Store} (h : Same s t) : Same t s :=
  ⟨fun store => (h.rows store).symm, h.writes.symm⟩

theorem Same.trans {s t u : Store} (h : Same s t) (h' : Same t u) : Same s u :=
  ⟨fun store => (h'.rows store).trans (h.rows store), h'.writes.trans h.writes⟩

theorem same_opened (s : Store) (store : String) : Same s (s.opened store) := by
  refine ⟨fun other => ?_, rfl⟩
  show ((Entries.insert store (s.rows store) s.tables).lookup other).getD [] = s.rows other
  by_cases hother : other = store
  · rw [hother, Entries.lookup_insert_self]
    rfl
  · rw [Entries.lookup_insert_ne hother]
    rfl

/-- A handler that answers as the storage does, stores what the storage stores, and keeps rows and trace when it
only reads. -/
structure Serves (handler : Handler Store) : Prop where
  get : ∀ store key s, ∃ t, handler.get store key s = (.ok (s.get store key), t) ∧ Same s t
  put : handler.put = Store.handler.put
  query : ∀ store spec s, ∃ t, handler.query store spec s = (s.query store spec, t) ∧ Same s t

theorem serves_handler : Serves handler where
  get _ _ s := ⟨s, rfl, .refl s⟩
  put := rfl
  query _ _ s := ⟨s, rfl, .refl s⟩

theorem serves_opening : Serves opening where
  get store _ s := ⟨s.opened store, rfl, same_opened s store⟩
  put := rfl
  query store spec s := by
    cases hfields : selection spec with
    | ok fields =>
        refine ⟨s.opened store, ?_, same_opened s store⟩
        simp only [opening, hfields]
    | error e =>
        refine ⟨s, ?_, .refl s⟩
        simp only [opening, hfields, query, bind, Except.bind]

theorem serves_of {handler : Handler Store} (h : handler = Store.handler ∨ handler = opening) :
    Serves handler := by
  rcases h with rfl | rfl
  · exact serves_handler
  · exact serves_opening

namespace Serves

variable {handler : Handler Store} (h : Serves handler)
include h

theorem same_get (store : String) (key : Json) (s : Store) : Same s (handler.get store key s).2 := by
  obtain ⟨t, hget, hsame⟩ := h.get store key s
  rw [hget]
  exact hsame

theorem same_query (store : String) (spec : Json) (s : Store) : Same s (handler.query store spec s).2 := by
  obtain ⟨t, hquery, hsame⟩ := h.query store spec s
  rw [hquery]
  exact hsame

/-- A row is appended with its id and traced, and nothing else is accepted. -/
theorem put_cases (store : String) (value : Json) (s : Store) :
    (∃ row, value = .object row ∧
      let stored := identified (s.rows store).length row
      handler.put store value s = (.ok (.object stored), s.append store stored)) ∨
    ∃ e, handler.put store value s = (.error e, s) := by
  rw [h.put]
  cases value with
  | object row => exact .inl ⟨row, rfl, rfl⟩
  | _ => exact .inr ⟨_, rfl⟩

end Serves

/-! ### Rows and writes -/

/-- The rows that a seed has for a store: none if it does not name the store or what it has there is no list. Of
several members under one name the last one counts. -/
def seeded (seed : Json) (store : String) : List Json :=
  match seed with
  | .object members => (((Json.ofPairs members).member? store).bind Json.asArray?).getD []
  | _ => []

/-- The values of the writes to a store, in their order. -/
def written (store : String) (writes : List Write) : List Json :=
  (writes.filter fun write => write.store == store).map Write.value

/-- Every store holds its rows of the seed and behind them what was written to it. -/
def Accounted (seed : Json) (s : Store) : Prop :=
  ∀ store, (s.rows store).map .object = seeded seed store ++ written store s.writes

theorem rows_append_self (s : Store) (store : String) (row : Row) :
    (s.append store row).rows store = s.rows store ++ [row] := by
  rw [rows, append, Entries.lookup_insert_self, Option.getD_some]

theorem rows_append_ne (s : Store) {store other : String} (hother : other ≠ store) (row : Row) :
    (s.append store row).rows other = s.rows other := by
  rw [rows, append, Entries.lookup_insert_ne hother, rows]

theorem rows_append (s : Store) (store other : String) (row : Row) :
    (s.append store row).rows other = s.rows other ++ if other = store then [row] else [] := by
  by_cases hother : other = store
  · rw [hother, rows_append_self, if_pos rfl]
  · rw [rows_append_ne s hother, if_neg hother, List.append_nil]

theorem written_append_self (store : String) (writes : List Write) (value : Json) :
    written store (writes ++ [⟨"idb.put", store, value⟩]) = written store writes ++ [value] := by
  simp [written]

theorem written_append_ne {store other : String} (hother : other ≠ store) (writes : List Write) (value : Json) :
    written other (writes ++ [⟨"idb.put", store, value⟩]) = written other writes := by
  simp [written, hother.symm]

theorem Accounted.append {seed : Json} {s : Store} (h : s.Accounted seed) (store : String) (row : Row) :
    (s.append store row).Accounted seed := by
  intro other
  show ((s.append store row).rows other).map .object =
    seeded seed other ++ written other (s.writes ++ [⟨"idb.put", store, .object row⟩])
  by_cases hother : other = store
  · rw [hother, rows_append_self, written_append_self, List.map_append, h store, List.append_assoc]
    rfl
  · rw [rows_append_ne s hother, written_append_ne hother, h other]

theorem Accounted.same {seed : Json} {s t : Store} (h : s.Accounted seed) (hsame : Same s t) :
    t.Accounted seed := by
  intro store
  rw [hsame.rows, hsame.writes, h store]

/-- The rows of a store in a seed are the items of the list that the seed has for it. -/
theorem map_seedRows {store : String} {doc : Json} {rows : List Row} (h : seedRows store doc = .ok rows) :
    rows.map .object = doc.asArray?.getD [] := by
  cases doc with
  | array docs =>
      have hdocs : rows.map .object = docs.map id := by
        refine map_eq_of_mapM (fun item row hrow => ?_) h
        cases item with
        | object members =>
            cases hrow
            rfl
        | _ => cases hrow
      rwa [List.map_id] at hdocs
  | _ =>
      cases h
      rfl

theorem accounted_ofSeed {seed : Json} {start : Store} (h : ofSeed seed = .ok start) : start.Accounted seed := by
  intro store
  cases seed with
  | null =>
      cases h
      rfl
  | object members =>
      obtain ⟨tables, htables, h⟩ := bind_eq_ok.mp h
      cases h
      have hsame : Entries.mapItems (List.map Json.object) tables =
          Entries.mapItems (fun doc => doc.asArray?.getD []) members := by
        refine map_eq_of_mapM (fun member table hread => ?_) htables
        obtain ⟨rows, hrows, hread⟩ := bind_eq_ok.mp hread
        cases hread
        rw [map_seedRows hrows]
      have hlookup := congrArg (fun entries => (Entries.ofList entries).lookup store) hsame
      simp only [← Entries.ofList_mapItems, Entries.lookup_mapItems] at hlookup
      show (((Entries.ofList tables).lookup store).getD []).map .object =
        (((Entries.ofList members).lookup store).bind Json.asArray?).getD [] ++ []
      rw [List.append_nil]
      calc (((Entries.ofList tables).lookup store).getD []).map .object
          = (((Entries.ofList tables).lookup store).map (List.map Json.object)).getD [] :=
            (Option.getD_map (List.map Json.object) [] _).symm
        _ = (((Entries.ofList members).lookup store).map fun doc => doc.asArray?.getD []).getD [] := by
            rw [hlookup]
        _ = (((Entries.ofList members).lookup store).bind Json.asArray?).getD [] := by
            cases (Entries.ofList members).lookup store <;> rfl
  | _ => cases h

/-- No call takes a record away, and none adds one that is not traced. -/
theorem accounted_of_reachable {handler : Handler Store} (hserves : Serves handler) {seed : Json}
    {start s : Store} (hseed : ofSeed seed = .ok start) (h : handler.Reachable start s) : s.Accounted seed := by
  induction h with
  | start => exact accounted_ofSeed hseed
  | get _ store key ih => exact ih.same (hserves.same_get store key _)
  | @put s _ store value ih =>
      rcases hserves.put_cases store value s with ⟨row, -, hput⟩ | ⟨e, hput⟩
      · rw [hput]
        exact ih.append store _
      · rw [hput]
        exact ih
  | query _ store spec ih => exact ih.same (hserves.same_query store spec _)

/-- Where a seed and any calls lead, a store holds its rows of the seed and behind them what was written to it. The
next call traces the record it answers, if it stores one, and otherwise leaves all rows and the trace alone. -/
theorem rows_eq_seeded_append_written {handler : Handler Store} (hhandler : handler = Store.handler ∨ handler = opening)
    {seed : Json} {start s : Store} (hseed : ofSeed seed = .ok start) (hs : handler.Reachable start s) :
    (∀ store, (s.rows store).map .object = seeded seed store ++ written store s.writes) ∧
    (∀ store value record t, handler.put store value s = (.ok record, t) →
      t.writes = s.writes ++ [⟨"idb.put", store, record⟩] ∧ Stored value record) ∧
    (∀ store value e t, handler.put store value s = (.error e, t) → Same s t) ∧
    (∀ store key, Same s (handler.get store key s).2) ∧
    ∀ store spec, Same s (handler.query store spec s).2 := by
  have hserves := serves_of hhandler
  refine ⟨accounted_of_reachable hserves hseed hs, ?_, ?_, fun store key => hserves.same_get store key s,
    fun store spec => hserves.same_query store spec s⟩
  · intro store value record t hstored
    rcases hserves.put_cases store value s with ⟨row, rfl, hput⟩ | ⟨e, hput⟩
    · rw [hput] at hstored
      cases hstored
      exact ⟨rfl, stored_identified _ row⟩
    · rw [hput] at hstored
      cases hstored
  · intro store value e t hrefused
    rcases hserves.put_cases store value s with ⟨row, rfl, hput⟩ | ⟨e', hput⟩
    · rw [hput] at hrefused
      cases hrefused
    · rw [hput] at hrefused
      cases hrefused
      exact .refl s

/-- A seed with a single user, and a second user without an id. -/
def oneUser : Json :=
  .object [("users", .array [.object [("id", .string "1")]])]

def secondUser : Json :=
  .object [("name", .string "bob")]

/-- The second user is given the next id, and a query that fails after it has opened its store adds nothing. -/
theorem rows_eq_seeded_append_written_second_user :
    ∃ start s, ofSeed oneUser = .ok start ∧ opening.Reachable start s ∧
      (s.rows "users").map Json.object =
        [.object [("id", .string "1")], .object [("id", .string "2"), ("name", .string "bob")]] ∧
      (opening.query "visits" (.object [("LIMIT", .string "all")]) s).1 = .error (.validation .limit) ∧
      Same s (opening.query "visits" (.object [("LIMIT", .string "all")]) s).2 := by
  obtain ⟨start, hseed⟩ : ∃ start, ofSeed oneUser = .ok start := ⟨_, rfl⟩
  have hreach : opening.Reachable start (opening.put "users" secondUser start).2 := .put .start "users" secondUser
  obtain ⟨hrows, -, -, -, hquery⟩ := rows_eq_seeded_append_written (.inr rfl) hseed hreach
  cases hseed
  exact ⟨_, _, rfl, hreach, hrows "users", rfl, hquery "visits" _⟩

end Store

end StampedPrograms
