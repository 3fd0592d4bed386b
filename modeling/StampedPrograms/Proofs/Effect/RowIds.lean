import StampedPrograms.Proofs.Effect.History

/-!
Reading one's own write. A record that is stored without an id is given the number of its place in the store, and no
two records are ever given the same one. But the storage does not look at the ids that the host gives itself: if it
has given that number to an earlier row, it is that row that is read back.
-/

namespace StampedPrograms

theorem Json.equal_string_iff {doc : Json} {text : String} :
    doc.equal (.string text) = true ↔ doc = .string text := by
  cases doc with
  | string s => simp [equal]
  | _ => simp [equal]

namespace Store

variable {seed : Json} {calls : List HandlerCall} {call : HandlerCall} {s t : Store} {store : String} {id : Json}
  {row : Row}

/-! ### Assigned ids -/

/-- The id of a record that has none and is stored behind so many rows: its place, from one on. -/
def assignedId (count : Nat) : Json :=
  .string (count + 1).repr

theorem assignedId_inj {m n : Nat} (h : assignedId m = assignedId n) : m = n := by
  have hdigits := congrArg String.toList (Json.string.inj h)
  rw [Nat.toList_repr, Nat.toList_repr] at hdigits
  have hplace : m + 1 = n + 1 :=
    calc m + 1 = Nat.ofDigitChars 10 (Nat.toDigits 10 (m + 1)) 0 := Nat.ofDigitChars_ten_toDigits.symm
      _ = Nat.ofDigitChars 10 (Nat.toDigits 10 (n + 1)) 0 := by rw [hdigits]
      _ = n + 1 := Nat.ofDigitChars_ten_toDigits
  exact Nat.succ.inj hplace

/-- A record has an id of its own and stays as it is, or is given one. -/
theorem identified_cases (count : Nat) (row : Row) :
    (∃ id, row.lookup "id" = some id ∧ ¬ NoId id ∧ identified count row = row) ∨
    ((∀ id, row.lookup "id" = some id → NoId id) ∧
      identified count row = Entries.insert "id" (assignedId count) row) := by
  rw [identified]
  split
  · next hid =>
      obtain ⟨id, hlookup, hid⟩ := Option.any_eq_true _ _ |>.mp hid
      exact .inl ⟨id, hlookup, isId_iff.mp hid, rfl⟩
  · next hnone =>
      refine .inr ⟨fun id hlookup => ?_, rfl⟩
      rw [hlookup, Option.any_some, isId_iff, Classical.not_not] at hnone
      exact hnone

/-! ### Where ids come from -/

/-- Some row of the store has this id. -/
def Taken (s : Store) (store : String) (id : Json) : Prop :=
  ∃ row ∈ s.rows store, row.lookup "id" = some id

theorem Taken.append (h : s.Taken store id) (other : String) (row : Row) : (s.append other row).Taken store id := by
  obtain ⟨found, hfound, hown⟩ := h
  refine ⟨found, ?_, hown⟩
  rw [rows_append]
  exact List.mem_append_left _ hfound

theorem getElem?_rows_append {other : String} {i : Nat} {found : Row}
    (h : ((s.append store row).rows other)[i]? = some found) :
    (s.rows other)[i]? = some found ∨ other = store ∧ i = (s.rows store).length ∧ found = row := by
  by_cases hother : other = store
  · subst hother
    rw [rows_append_self, List.getElem?_append] at h
    split at h
    · exact .inl h
    · rw [List.getElem?_singleton] at h
      split at h
      · exact .inr ⟨rfl, by omega, (Option.some.inj h).symm⟩
      · cases h
  · rw [rows_append_ne s hother] at h
    exact .inl h

/-- An id that the host has given itself, to a row of the seed or to a value it put. -/
inductive Given (seed : Json) (calls : List HandlerCall) (store : String) (id : Json) : Prop where
  | seeded {row : Json} (mem : row ∈ seeded seed store) (own : row.member? "id" = some id)
  | put {value : Json} {answer : Except Error Json} (mem : .put store value answer ∈ calls)
      (own : value.member? "id" = some id)

theorem given_append :
    Given seed (calls ++ [call]) store id ↔
      Given seed calls store id ∨ ∃ value answer, call = .put store value answer ∧ value.member? "id" = some id := by
  constructor
  · rintro (⟨hmem, hown⟩ | ⟨hmem, hown⟩)
    · exact .inl (.seeded hmem hown)
    · rcases List.mem_append.mp hmem with hmem | hmem
      · exact .inl (.put hmem hown)
      · exact .inr ⟨_, _, (List.mem_singleton.mp hmem).symm, hown⟩
  · rintro ((⟨hmem, hown⟩ | ⟨hmem, hown⟩) | ⟨value, answer, rfl, hown⟩)
    · exact .seeded hmem hown
    · exact .put (List.mem_append_left _ hmem) hown
    · exact .put (List.mem_append_right _ (List.mem_singleton_self _)) hown

/-- Every id of a row was given by the host or is the row's place, and every usable id that the host has given is
the id of a row. -/
structure Sourced (seed : Json) (calls : List HandlerCall) (s : Store) : Prop where
  source : ∀ store i row id, (s.rows store)[i]? = some row → row.lookup "id" = some id →
    Given seed calls store id ∨ id = assignedId i
  kept : ∀ store id, Given seed calls store id → ¬ NoId id → s.Taken store id

theorem writes_ofSeed {start : Store} (h : ofSeed seed = .ok start) : start.writes = [] := by
  cases seed with
  | null =>
      cases h
      rfl
  | object members =>
      obtain ⟨tables, -, h⟩ := bind_eq_ok.mp h
      cases h
      rfl
  | _ => cases h

theorem sourced_ofSeed {start : Store} (h : ofSeed seed = .ok start) : Sourced seed [] start := by
  have hrows (store : String) : (start.rows store).map .object = seeded seed store := by
    rw [accounted_ofSeed h store, writes_ofSeed h]
    exact List.append_nil _
  constructor
  · intro store i row id hrow hown
    have hmem : Json.object row ∈ seeded seed store := by
      rw [← hrows]
      exact List.mem_map_of_mem (List.mem_of_getElem? hrow)
    exact .inl (.seeded hmem hown)
  · rintro store id (⟨hmem, hown⟩ | ⟨hmem, -⟩) -
    · rw [← hrows] at hmem
      obtain ⟨row, hrow, rfl⟩ := List.mem_map.mp hmem
      exact ⟨row, hrow, hown⟩
    · cases hmem

/-- A call that leaves the rows alone and names no id. -/
theorem Sourced.same (h : Sourced seed calls s) (hsame : Same s t)
    (hcall : ∀ store value answer, call = .put store value answer → value.member? "id" = none) :
    Sourced seed (calls ++ [call]) t := by
  have hgiven {store : String} {id : Json} : Given seed (calls ++ [call]) store id ↔ Given seed calls store id := by
    refine given_append.trans (or_iff_left ?_)
    rintro ⟨value, answer, hput, hown⟩
    rw [hcall store value answer hput] at hown
    cases hown
  constructor
  · intro store i row id hrow hown
    rw [hsame.rows] at hrow
    exact (h.source store i row id hrow hown).imp_left hgiven.mpr
  · intro store id hid husable
    obtain ⟨row, hrow, hown⟩ := h.kept store id (hgiven.mp hid) husable
    exact ⟨row, (hsame.rows store).symm ▸ hrow, hown⟩

theorem Sourced.append (h : Sourced seed calls s) (store : String) (row : Row) (answer : Except Error Json) :
    Sourced seed (calls ++ [.put store (.object row) answer])
      (s.append store (identified (s.rows store).length row)) := by
  have hcases := identified_cases (s.rows store).length row
  constructor
  · intro other i found id hfound hown
    rcases getElem?_rows_append hfound with hfound | ⟨rfl, rfl, rfl⟩
    · exact (h.source other i found id hfound hown).imp_left fun hid => given_append.mpr (.inl hid)
    · rcases hcases with ⟨-, -, -, hsame⟩ | ⟨-, hassigned⟩
      · rw [hsame] at hown
        exact .inl (given_append.mpr (.inr ⟨_, _, rfl, hown⟩))
      · rw [hassigned, Entries.lookup_insert_self] at hown
        exact .inr (Option.some.inj hown).symm
  · intro other id hid husable
    rcases given_append.mp hid with hid | ⟨value, answer', hput, hown⟩
    · exact (h.kept other id hid husable).append store _
    · cases hput
      rcases hcases with ⟨-, -, -, hsame⟩ | ⟨hnone, -⟩
      · refine ⟨row, ?_, hown⟩
        rw [rows_append_self, hsame]
        exact List.mem_append_right _ (List.mem_singleton_self row)
      · exact absurd (hnone id hown) husable

variable {handler : Handler Store}

theorem Sourced.put (h : Sourced seed calls s) (hserves : Serves handler) (store : String) (value : Json) :
    Sourced seed (calls ++ [.put store value (handler.put store value s).1]) (handler.put store value s).2 := by
  rw [hserves.put]
  cases value with
  | object row => exact h.append store row _
  | _ => exact h.same (.refl s) fun _ _ _ hput => by cases hput; rfl

/-- Whatever calls a storage has received, every id in it comes from the host or is the place of its row. -/
theorem sourced_of_reachable (hserves : Serves handler) {start : Store} (hseed : ofSeed seed = .ok start)
    {state : Store × List HandlerCall} (h : handler.recorded.Reachable (start, []) state) :
    Sourced seed state.2 state.1 := by
  induction h with
  | start => exact sourced_ofSeed hseed
  | @get state _ store key ih => exact ih.same (hserves.same_get store key state.1) fun _ _ _ hput => by cases hput
  | put _ store value ih => exact ih.put hserves store value
  | @query state _ store spec ih =>
      exact ih.same (hserves.same_query store spec state.1) fun _ _ _ hput => by cases hput

/-- The next assigned id is taken only if the host has given it itself. -/
theorem Sourced.taken_iff (h : Sourced seed calls s) (store : String) :
    s.Taken store (assignedId (s.rows store).length) ↔ Given seed calls store (assignedId (s.rows store).length) := by
  constructor
  · rintro ⟨row, hmem, hown⟩
    obtain ⟨i, hplace, hrow⟩ := List.getElem_of_mem hmem
    rcases h.source store i row _ (List.getElem?_eq_some_iff.mpr ⟨hplace, hrow⟩) hown with hid | hid
    · exact hid
    · exact absurd (assignedId_inj hid) (Nat.ne_of_gt hplace)
  · exact fun hid => h.kept store _ hid (isId_iff.mp (isId_repr _))

/-! ### Reading back -/

theorem get_assignedId_of_free {count : Nat} (h : ¬ s.Taken store (assignedId count)) :
    s.get store (assignedId count) = none := by
  rw [get, List.find?_eq_none.mpr, Option.map_none]
  intro row hrow hany
  obtain ⟨id, hown, hequal⟩ := Option.any_eq_true _ _ |>.mp hany
  rw [Json.equal_string_iff.mp hequal] at hown
  exact h ⟨row, hrow, hown⟩

theorem get_assignedId_of_taken {count : Nat} (h : s.Taken store (assignedId count)) :
    ∃ first ∈ s.rows store, first.lookup "id" = some (assignedId count) ∧
      s.get store (assignedId count) = some (.object first) := by
  obtain ⟨row, hrow, hown⟩ := h
  have hsome : ((s.rows store).find? fun row => (row.lookup "id").any fun id =>
      id.equal (assignedId count)).isSome := by
    refine List.find?_isSome.mpr ⟨row, hrow, ?_⟩
    rw [hown, Option.any_some]
    exact Json.equal_self _
  obtain ⟨first, hfirst⟩ := Option.isSome_iff_exists.mp hsome
  have hhit := List.find?_some hfirst
  obtain ⟨id, hlookup, hequal⟩ := Option.any_eq_true _ _ |>.mp hhit
  rw [Json.equal_string_iff.mp hequal] at hlookup
  exact ⟨first, List.mem_of_find?_eq_some hfirst, hlookup, by rw [get, hfirst, Option.map_some]⟩

/-- A new row is only found where none was found before it. -/
theorem get_append_self (s : Store) (store : String) (hown : row.lookup "id" = some id) :
    (s.append store row).get store id = some ((s.get store id).getD (.object row)) := by
  rw [get, get, rows_append_self, List.find?_append, List.find?_singleton, hown, Option.any_some, Json.equal_self,
    if_pos rfl]
  cases (s.rows store).find? _ <;> rfl

theorem identified_of_noId (h : ∀ id, row.lookup "id" = some id → NoId id) (count : Nat) :
    identified count row = Entries.insert "id" (assignedId count) row := by
  rcases identified_cases count row with ⟨own, hlookup, husable, -⟩ | ⟨-, hassigned⟩
  · exact absurd (h own hlookup) husable
  · exact hassigned

/-- A record without an id is stored with its place in the store as its id. That id is free, and reads back the
record, unless the host has given it itself to a row of the store before; then it reads back the first such row. -/
theorem put_get_back (hhandler : handler = Store.handler ∨ handler = opening) {start : Store}
    (hseed : ofSeed seed = .ok start) (hs : handler.recorded.Reachable (start, []) (s, calls)) (store : String)
    (hrow : ∀ id, row.lookup "id" = some id → NoId id) :
    let id := assignedId (s.rows store).length
    let record := Json.object (Entries.insert "id" id row)
    ∃ t, handler.put store (.object row) s = (.ok record, t) ∧ record.member? "id" = some id ∧
      (¬ Given seed calls store id →
        ¬ s.Taken store id ∧ (handler.get store id t).1 = .ok (some record)) ∧
      (Given seed calls store id →
        ∃ first ∈ s.rows store, first.lookup "id" = some id ∧ s.get store id = some (.object first) ∧
          (handler.get store id t).1 = .ok (some (.object first))) := by
  intro id record
  have hserves := serves_of hhandler
  have htaken := (sourced_of_reachable hserves hseed hs).taken_iff store
  let stored := Entries.insert "id" id row
  have hown : stored.lookup "id" = some id := Entries.lookup_insert_self "id" id row
  have hput : handler.put store (.object row) s = (.ok record, s.append store stored) := by
    rw [hserves.put]
    show (Except.ok (Json.object (identified _ row)), s.append store (identified _ row)) = _
    rw [identified_of_noId hrow]
  have hget : (handler.get store id (s.append store stored)).1 = .ok (some ((s.get store id).getD record)) := by
    obtain ⟨t, hanswer, -⟩ := hserves.get store id (s.append store stored)
    rw [hanswer, get_append_self s store hown]
  refine ⟨_, hput, hown, fun hgiven => ?_, fun hgiven => ?_⟩
  · have hfree := mt htaken.mp hgiven
    have hnone : s.get store id = none := get_assignedId_of_free hfree
    rw [hnone] at hget
    exact ⟨hfree, hget⟩
  · obtain ⟨first, hfirst, hlookup, hfound⟩ := get_assignedId_of_taken (htaken.mpr hgiven)
    have hfound : s.get store id = some (.object first) := hfound
    rw [hfound] at hget
    exact ⟨first, hfirst, hlookup, hfound, hget⟩

/-- The second user reads itself back under the next id. Behind a user that came with the id `3` instead, it is given
that id too and reads back the other one. -/
theorem put_get_back_users :
    ∃ start, ofSeed oneUser = .ok start ∧
      (∃ t, Store.handler.put "users" secondUser start =
          (.ok (.object [("id", .string "2"), ("name", .string "bob")]), t) ∧
        (Store.handler.get "users" (.string "2") t).1 =
          .ok (some (.object [("id", .string "2"), ("name", .string "bob")]))) ∧
      ∃ s calls t first, Store.handler.recorded.Reachable (start, []) (s, calls) ∧
        Store.handler.put "users" secondUser s =
          (.ok (.object [("id", .string "3"), ("name", .string "bob")]), t) ∧
        first ∈ s.rows "users" ∧
        (Store.handler.get "users" (.string "3") t).1 = .ok (some (.object first)) := by
  obtain ⟨start, hseed⟩ : ∃ start, ofSeed oneUser = .ok start := ⟨_, rfl⟩
  let third : Json := .object [("id", .string "3")]
  have hnone : ∀ id, [("name", Json.string "bob")].lookup "id" = some id → NoId id := by
    intro id hid
    cases hid
  have hthird := @Handler.Reachable.put _ Store.handler.recorded (start, []) (start, []) .start "users" third
  obtain ⟨t, hput, -, hfree, -⟩ := put_get_back (.inl rfl) hseed .start "users" hnone
  obtain ⟨t', hput', -, -, hgiven⟩ := put_get_back (.inl rfl) hseed hthird "users" hnone
  cases hseed
  refine ⟨_, rfl, ⟨t, hput, (hfree ?_).2⟩, ?_⟩
  · rintro (⟨hmem, hown⟩ | ⟨hmem, -⟩)
    · rw [List.mem_singleton.mp hmem] at hown
      exact absurd (Json.string.inj (Option.some.inj hown)) (by decide)
    · cases hmem
  · have hown : third.member? "id" = some (.string "3") := rfl
    obtain ⟨first, hfirst, -, -, hget⟩ := hgiven (.put (List.mem_singleton_self _) hown)
    exact ⟨_, _, t', first, hthird, hput', hfirst, hget⟩

/-- A seed with a user whose id is the place of the one behind it. -/
def secondPlace : Json :=
  .object [("users", .array [.object [("id", .string "2"), ("name", .string "ada")]])]

/-- The second user is given the id that the first one has, and reads back the first one. -/
theorem put_get_other :
    ∃ start t, ofSeed secondPlace = .ok start ∧ start.Taken "users" (.string "2") ∧
      Store.handler.put "users" secondUser start =
        (.ok (.object [("id", .string "2"), ("name", .string "bob")]), t) ∧
      (Store.handler.get "users" (.string "2") t).1 =
        .ok (some (.object [("id", .string "2"), ("name", .string "ada")])) :=
  ⟨_, _, rfl, ⟨_, List.mem_singleton_self _, rfl⟩, rfl, rfl⟩

end Store

end StampedPrograms
