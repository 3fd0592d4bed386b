import StampedPrograms.Program.Action
import StampedPrograms.Effect.Handler

/-!
Running a program: its blocks act one after the other, and the first that fails ends the run. What
the blocks before it did stays done.
-/

namespace StampedPrograms

/-- A reply or an emission. -/
structure EventRecord where
  event : String
  version : UInt32 := 1
  input : Json

instance : Documented EventRecord where
  toJson record := .ofPairs [
    ("event", .string record.event), ("v", .ofUInt32 record.version), ("input", record.input)]

/-- What a run has said: its latest reply and all its emissions. -/
structure Outcome where
  reply : Option EventRecord := none
  emits : List EventRecord := []

/-- What a run carries from block to block: the result of the latest storage call, and the outcome.
-/
structure Progress where
  last : Json := .null
  outcome : Outcome := {}

namespace Progress

def input (p : Progress) : Body → Json
  | .last => p.last
  | .given doc => doc

def withLast (p : Progress) (last : Json) : Progress :=
  { p with last }

def replied (p : Progress) (event : String) (body : Body) : Progress :=
  { p with outcome := { p.outcome with reply := some { event, input := p.input body } } }

def emitted (p : Progress) (event : String) (body : Body) : Progress :=
  { p with
    outcome := { p.outcome with emits := p.outcome.emits ++ [{ event, input := p.input body }] } }

end Progress

/-- The result of a query, as later blocks see it. -/
def rowsDocument (rows : List Json) : Json :=
  .ofPairs [("rows", .array rows)]

section

variable {σ : Type}

/-- Does what an action asks for. -/
def Action.perform (handler : Handler σ) (p : Progress) (state : σ) :
    Action → Except Error Progress × σ
  | .get store key =>
      let (answer, next) := handler.get store key state
      (answer.map fun row => p.withLast (row.getD .null), next)
  | .put store value =>
      let (answer, next) := handler.put store value state
      (answer.map p.withLast, next)
  | .query store spec =>
      let (answer, next) := handler.query store spec state
      (answer.map fun rows => p.withLast (rowsDocument rows), next)
  | .reply event body => (.ok (p.replied event body), state)
  | .emit event body => (.ok (p.emitted event body), state)

/-- A block whose action cannot be read does nothing. -/
def Block.perform (handler : Handler σ) (policy : Policy) (p : Progress) (state : σ)
    (block : Block) : Except Error Progress × σ :=
  match block.action policy with
  | .ok action => action.perform handler p state
  | .error e => (.error e, state)

/-- How a run ended: with an error if a block failed, with what it said before, and with the state
of the handler. -/
structure Run (σ : Type) where
  failure : Option Error
  outcome : Outcome
  state : σ

/-- The run of these blocks from here on. -/
def runFrom (handler : Handler σ) (policy : Policy) (p : Progress) (state : σ) :
    List Block → Run σ
  | [] => ⟨none, p.outcome, state⟩
  | block :: blocks =>
      match block.perform handler policy p state with
      | (.ok next, state) => runFrom handler policy next state blocks
      | (.error e, state) => ⟨some e, p.outcome, state⟩

def ProgramPack.run (pack : ProgramPack) (handler : Handler σ) (policy : Policy) (state : σ) :
    Run σ :=
  runFrom handler policy {} state pack.blocks

end

end StampedPrograms
