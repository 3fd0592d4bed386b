import StampedPrograms.Program.Run
import StampedPrograms.Proofs.Program.Action

/-!
What one block does. It fails before it asks for anything, or it makes the one call it stands for and passes
on the answer, or it replies or emits. Keeping the calls of a handler changes nothing.
-/

namespace StampedPrograms

/-- The operations that act on the storage. -/
def storageOps : List String := ["idb.get", "idb.put", "idb.query"]

/-- What a call answered, as later blocks see it. -/
def HandlerCall.result : HandlerCall → Except Error Json
  | .get _ _ answer => answer.map fun row => row.getD .null
  | .put _ _ answer => answer
  | .query _ _ answer => answer.map rowsDocument

namespace Block

def usesStorage (block : Block) : Bool :=
  storageOps.contains block.op

/-- The call that a block stands for: on the store it names, with its own key, row or query. -/
inductive Calls (block : Block) : HandlerCall → Prop where
  | get {store : String} {key : Json} (op : block.op = "idb.get")
      (names : block.arg? "store" = some (.string store)) (holds : block.arg? "key" = some key)
      (answer : Except Error (Option Json)) : Calls block (.get store key answer)
  | put {store : String} {value : Json} (op : block.op = "idb.put")
      (names : block.arg? "store" = some (.string store)) (holds : block.arg? "value" = some value)
      (answer : Except Error Json) : Calls block (.put store value answer)
  | query {store : String} (op : block.op = "idb.query")
      (names : block.arg? "store" = some (.string store)) (answer : Except Error (List Json)) :
      Calls block (.query store ((block.arg? "kql").getD .null) answer)

theorem Calls.op_mem {block : Block} {call : HandlerCall} (h : block.Calls call) : block.op ∈ storageOps := by
  cases h with
  | get op => rw [op]; decide
  | put op => rw [op]; decide
  | query op => rw [op]; decide

theorem Calls.usesStorage {block : Block} {call : HandlerCall} (h : block.Calls call) :
    block.usesStorage = true :=
  List.contains_iff_mem.mpr h.op_mem

theorem stringArg_eq_ok {block : Block} {name s : String} :
    block.stringArg name = .ok s ↔ block.arg? name = some (.string s) := by
  rw [stringArg]
  split
  · next found hfound => simp [hfound]
  · next hother => exact iff_of_false (by rintro ⟨⟩) (hother s)

theorem eventName_eq_ok {block : Block} {event : String} (h : block.eventName = .ok event) :
    block.arg? "event" = some (.string event) ∧ event ≠ "" := by
  obtain ⟨name, hname, h⟩ := bind_eq_ok.mp h
  rw [stringArg_eq_ok] at hname
  dsimp only at h
  split at h
  · cases h
  · next hempty =>
      cases h
      exact ⟨hname, fun heq => hempty (String.isEmpty_iff.mpr heq)⟩

/-- All that a block can do: nothing, if what it asks for cannot be told; one call, whose answer it passes
on; or an event. -/
inductive Does (policy : Policy) (block : Block) (p : Progress) :
    Except Error Progress → List HandlerCall → Prop where
  | stopped {e : Error} (unread : block.action policy = .error e) : Does policy block p (.error e) []
  | called {call : HandlerCall} {answer : Except Error Progress} (allowed : policy.allowStorage = true)
      (calls : block.Calls call) (passes : answer = call.result.map p.withLast) :
      Does policy block p answer [call]
  | replied {event : String} (op : block.op = "event.reply") (names : block.eventName = .ok event) :
      Does policy block p (.ok (p.replied event block.body)) []
  | emitted {event : String} (op : block.op = "event.emit") (names : block.eventName = .ok event) :
      Does policy block p (.ok (p.emitted event block.body)) []

/-- A block does the same whether or not its calls are kept. -/
theorem does_recorded {σ : Type} (block : Block) (handler : Handler σ) (policy : Policy) (p : Progress)
    (s : σ) (kept : List HandlerCall) :
    ∃ calls, block.perform handler.recorded policy p (s, kept) =
        ((block.perform handler policy p s).1, (block.perform handler policy p s).2, kept ++ calls) ∧
      block.Does policy p (block.perform handler policy p s).1 calls := by
  rw [perform, perform]
  cases haction : block.action policy with
  | error e => exact ⟨[], by rw [List.append_nil], .stopped haction⟩
  | ok action =>
      dsimp only
      cases asks_of_action haction with
      | @get store key op allowed names holds =>
          have hcalls := Calls.get op (stringArg_eq_ok.mp names) holds (handler.get store key s).1
          exact ⟨_, rfl, .called allowed hcalls (map_map ..).symm⟩
      | @put store value op allowed names holds =>
          have hcalls := Calls.put op (stringArg_eq_ok.mp names) holds (handler.put store value s).1
          exact ⟨_, rfl, .called allowed hcalls rfl⟩
      | @query store op allowed names =>
          have hcalls := Calls.query op (stringArg_eq_ok.mp names)
            (handler.query store ((block.arg? "kql").getD .null) s).1
          exact ⟨_, rfl, .called allowed hcalls (map_map ..).symm⟩
      | reply op names => exact ⟨[], by rw [List.append_nil]; rfl, .replied op names⟩
      | emit op names => exact ⟨[], by rw [List.append_nil]; rfl, .emitted op names⟩

/-! ### Failing and succeeding -/

/-- How a block fails: for what it holds or for the missing capability, before anything is asked, or
because its call is refused. -/
inductive Fails (policy : Policy) (block : Block) (e : Error) : List HandlerCall → Prop where
  | unread (action : block.action policy = .error e) : Fails policy block e []
  | refused {call : HandlerCall} (allowed : policy.allowStorage = true) (calls : block.Calls call)
      (refused : call.result = .error e) : Fails policy block e [call]

/-- How a block succeeds: with an answered call, which is the last result from then on, or with an event. -/
inductive Succeeds (block : Block) (p : Progress) : Progress → List HandlerCall → Prop where
  | answered {call : HandlerCall} {last : Json} (calls : block.Calls call) (answer : call.result = .ok last) :
      Succeeds block p (p.withLast last) [call]
  | replied {event : String} (op : block.op = "event.reply") (names : block.eventName = .ok event) :
      Succeeds block p (p.replied event block.body) []
  | emitted {event : String} (op : block.op = "event.emit") (names : block.eventName = .ok event) :
      Succeeds block p (p.emitted event block.body) []

variable {block : Block} {policy : Policy} {p q : Progress} {calls : List HandlerCall}

theorem Does.fails {e : Error} (h : block.Does policy p (.error e) calls) : block.Fails policy e calls := by
  cases h with
  | stopped unread => exact .unread unread
  | called allowed calls passes => exact .refused allowed calls (map_eq_error.mp passes.symm)

theorem Does.succeeds (h : block.Does policy p (.ok q) calls) : block.Succeeds p q calls := by
  cases h with
  | called allowed calls passes =>
      obtain ⟨last, hresult, rfl⟩ := map_eq_ok.mp passes.symm
      exact .answered calls hresult
  | replied op names => exact .replied op names
  | emitted op names => exact .emitted op names

/-- Without the capability a block does the same on every handler, and leaves it alone. -/
theorem perform_withheld {σ τ : Type} (h : policy.allowStorage = false) (handler : Handler σ)
    (other : Handler τ) (p : Progress) (s : σ) (t : τ) (block : Block) :
    block.perform handler policy p s = ((block.perform other policy p t).1, s) := by
  have hdenied : ¬ policy.allowStorage = true := by rw [h]; exact Bool.false_ne_true
  rw [perform, perform]
  cases haction : block.action policy with
  | error e => rfl
  | ok action =>
      cases asks_of_action haction with
      | get op allowed => exact absurd allowed hdenied
      | put op allowed => exact absurd allowed hdenied
      | query op allowed => exact absurd allowed hdenied
      | reply op names => rfl
      | emit op names => rfl

end Block

end StampedPrograms
