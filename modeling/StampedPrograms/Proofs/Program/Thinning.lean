import StampedPrograms.Proofs.Effect.Handler
import StampedPrograms.Proofs.Program.Storage

/-!
Reading and telling leave no trace in what is written. A block that does not put leaves the rows and the trace as
they are; and from the same rows and the same trace a block ends in the same way, and leads to the same rows and
trace again, whatever was read or said before it. So any blocks that read or tell can be left out of a program that
succeeds.
-/

namespace StampedPrograms

/-! ### Calls -/

namespace Store

variable {s t : Store} {handler : Handler Store}

theorem Same.get (h : Same s t) (hserves : Serves handler) (store : String) (key : Json) :
    (handler.get store key t).1 = (handler.get store key s).1 ∧
      Same (handler.get store key s).2 (handler.get store key t).2 := by
  obtain ⟨s', hs, hsame⟩ := hserves.get store key s
  obtain ⟨t', ht, hsame'⟩ := hserves.get store key t
  rw [hs, ht, Store.get, Store.get, h.rows]
  exact ⟨rfl, hsame.symm.trans (h.trans hsame')⟩

theorem Same.query (h : Same s t) (hserves : Serves handler) (store : String) (spec : Json) :
    (handler.query store spec t).1 = (handler.query store spec s).1 ∧
      Same (handler.query store spec s).2 (handler.query store spec t).2 := by
  obtain ⟨s', hs, hsame⟩ := hserves.query store spec s
  obtain ⟨t', ht, hsame'⟩ := hserves.query store spec t
  rw [hs, ht, Store.query, Store.query, h.rows]
  exact ⟨rfl, hsame.symm.trans (h.trans hsame')⟩

theorem Same.append (h : Same s t) (store : String) (row : Row) : Same (s.append store row) (t.append store row) := by
  constructor
  · intro other
    rw [rows_append, rows_append, h.rows]
  · rw [Store.append, Store.append, h.writes]

/-- A record is given the same id, since as many rows are in front of it. -/
theorem Same.put (h : Same s t) (hserves : Serves handler) (store : String) (value : Json) :
    (handler.put store value t).1 = (handler.put store value s).1 ∧
      Same (handler.put store value s).2 (handler.put store value t).2 := by
  rw [hserves.put]
  cases value with
  | object row =>
      have hrow : identified (t.rows store).length row = identified (s.rows store).length row := by rw [h.rows]
      show Except.ok (Json.object (identified (t.rows store).length row)) = _ ∧
        Same _ (t.append store (identified (t.rows store).length row))
      rw [hrow]
      exact ⟨rfl, h.append store _⟩
  | _ => exact ⟨rfl, h⟩

end Store

/-! ### Blocks -/

/-- The operations that read the storage or tell an event. -/
def silentOps : List String := ["idb.get", "idb.query", "event.emit", "event.reply"]

namespace Block

variable {handler : Handler Store} {s t : Store}

theorem same_of_silent (hserves : Store.Serves handler) {block : Block} (h : block.op ∈ silentOps)
    (policy : Policy) (p : Progress) (s : Store) : s.Same (block.perform handler policy p s).2 := by
  rw [perform]
  cases haction : block.action policy with
  | error e => exact .refl s
  | ok action =>
      cases asks_of_action haction with
      | @get store key => exact hserves.same_get store key s
      | put op => exact absurd (op ▸ h) (by decide)
      | @query store => exact hserves.same_query store _ s
      | reply => exact .refl s
      | emit => exact .refl s

/-- Whatever is done with an answer, it is the same one that fails. -/
theorem related_map {α : Type} (answer : Except Error α) (f g : α → Progress) :
    Related (fun _ _ => True) (answer.map f) (answer.map g) := by
  cases answer with
  | ok a => exact .ok trivial
  | error e => exact .error e

theorem perform_same (hserves : Store.Serves handler) (h : s.Same t) (policy : Policy) (p q : Progress)
    (block : Block) :
    Answered (fun _ _ => True) Store.Same (block.perform handler policy p s) (block.perform handler policy q t) := by
  rw [perform, perform]
  cases block.action policy with
  | error e => exact ⟨.error e, h⟩
  | ok action =>
      cases action with
      | get store key =>
          obtain ⟨hanswer, hsame⟩ := h.get hserves store key
          simp only [Action.perform, hanswer]
          exact ⟨related_map _ _ _, hsame⟩
      | put store value =>
          obtain ⟨hanswer, hsame⟩ := h.put hserves store value
          simp only [Action.perform, hanswer]
          exact ⟨related_map _ _ _, hsame⟩
      | query store spec =>
          obtain ⟨hanswer, hsame⟩ := h.query hserves store spec
          simp only [Action.perform, hanswer]
          exact ⟨related_map _ _ _, hsame⟩
      | reply event body => exact ⟨.ok trivial, h⟩
      | emit event body => exact ⟨.ok trivial, h⟩

theorem succeeds_same (hserves : Store.Serves handler) (h : s.Same t) {policy : Policy} {p p' : Progress} {s' : Store}
    {block : Block} (hok : block.perform handler policy p s = (.ok p', s')) (q : Progress) :
    ∃ q' t', block.perform handler policy q t = (.ok q', t') ∧ s'.Same t' := by
  have hsame := block.perform_same hserves h policy p q
  rw [hok] at hsame
  cases hblock : block.perform handler policy q t with
  | mk answer t' =>
      rw [hblock] at hsame
      obtain ⟨hanswer, hstates⟩ := hsame
      cases hanswer with
      | @ok _ q' => exact ⟨q', t', rfl, hstates⟩

end Block

/-! ### Programs -/

/-- The first blocks are the second ones without some of those that read or tell. -/
inductive Thinned : List Block → List Block → Prop where
  | nil : Thinned [] []
  | keep (block : Block) {kept blocks : List Block} (rest : Thinned kept blocks) :
      Thinned (block :: kept) (block :: blocks)
  | drop {block : Block} (silent : block.op ∈ silentOps) {kept blocks : List Block} (rest : Thinned kept blocks) :
      Thinned kept (block :: blocks)

section

variable {handler : Handler Store} {policy : Policy} {s t : Store}

/-- Where blocks succeed, those that are kept succeed too and lead to the same rows and trace. The progress of the two
runs may differ, since nothing that is put depends on it. -/
theorem Thinned.reaches {kept blocks : List Block} (h : Thinned kept blocks) (hserves : Store.Serves handler)
    (hsame : s.Same t) (q : Progress) {p p' : Progress} {s' : Store}
    (hreaches : Reaches handler policy p s blocks p' s') :
    ∃ q' t', Reaches handler policy q t kept q' t' ∧ s'.Same t' := by
  induction h generalizing s t p q with
  | nil =>
      cases hreaches
      exact ⟨q, t, .nil q t, hsame⟩
  | keep block _ ih =>
      cases hreaches with
      | cons first rest =>
          obtain ⟨q₁, t₁, hfirst, hsame₁⟩ := Block.succeeds_same hserves hsame first q
          obtain ⟨q', t', hrest, hsame'⟩ := ih hsame₁ q₁ rest
          exact ⟨q', t', .cons hfirst hrest, hsame'⟩
  | drop silent _ ih =>
      cases hreaches with
      | cons first rest =>
          have hsilent := Block.same_of_silent hserves silent policy p s
          rw [first] at hsilent
          exact ih (hsilent.symm.trans hsame) q rest

namespace ProgramPack

/-- A program that succeeds also does without any of the blocks that read or tell, and then leads to the same rows in
every store and to the same trace. -/
theorem run_thinned (hhandler : handler = Store.handler ∨ handler = Store.opening) {pack thinned : ProgramPack}
    (hthinned : Thinned thinned.blocks pack.blocks) (h : (pack.run handler policy s).failure = none) :
    (thinned.run handler policy s).failure = none ∧
      (∀ store, (thinned.run handler policy s).state.rows store = (pack.run handler policy s).state.rows store) ∧
      (thinned.run handler policy s).state.writes = (pack.run handler policy s).state.writes := by
  obtain ⟨p, u, hreaches⟩ := exists_reaches h
  obtain ⟨q, t, hkept, hsame⟩ := hthinned.reaches (Store.serves_of hhandler) (.refl s) {} hreaches
  rw [run, run, hreaches.runFrom_eq, hkept.runFrom_eq]
  exact ⟨rfl, hsame.rows, hsame.writes⟩

/-- Keeps a visit, and neither looks for the visitor nor tells anything. -/
def quietVisit : ProgramPack where
  program := ⟨"visit", "main", [
    ⟨"idb.put", [("store", .string "visits"), ("value", .object [("id", .string "ada")])]⟩]⟩

theorem run_thinned_visit :
    Thinned quietVisit.blocks visit.blocks ∧
      (visit.run Store.opening (visitPolicy true) {}).failure = none ∧
      (quietVisit.run Store.opening (visitPolicy true) {}).failure = none ∧
      (quietVisit.run Store.opening (visitPolicy true) {}).state.rows "visits" =
        (visit.run Store.opening (visitPolicy true) {}).state.rows "visits" ∧
      (quietVisit.run Store.opening (visitPolicy true) {}).state.writes =
        (visit.run Store.opening (visitPolicy true) {}).state.writes := by
  have hthinned : Thinned quietVisit.blocks visit.blocks :=
    .drop (by decide) (.drop (by decide) (.keep _ (.drop (by decide) (.drop (by decide) .nil))))
  have hsucceeds : (visit.run Store.opening (visitPolicy true) {}).failure = none := rfl
  obtain ⟨hquiet, hrows, hwrites⟩ := run_thinned (.inr rfl) hthinned hsucceeds
  exact ⟨hthinned, hsucceeds, hquiet, hrows "visits", hwrites⟩

end ProgramPack

end

end StampedPrograms
