import StampedPrograms.Program.Basic
import StampedPrograms.Policy

/-!
What a block asks for. A block is read under a policy, which may withhold the storage, before
anything happens.
-/

namespace StampedPrograms

/-- Where an event takes its input from. -/
inductive Body where
  | last
  | given (doc : Json)

inductive Action where
  | get (store : String) (key : Json)
  | put (store : String) (value : Json)
  | query (store : String) (spec : Json)
  | reply (event : String) (body : Body)
  | emit (event : String) (body : Body)

namespace Block

/-- The name of the capability to use the storage. -/
def storageCapability : String := "allow_idb"

def requireStorage (policy : Policy) (block : Block) : Except Error Unit :=
  if policy.allowStorage then .ok ()
  else .error (.capabilityDisabled storageCapability block.op)

def requireArg (block : Block) (name : String) : Except Error Json :=
  match block.arg? name with
  | some doc => .ok doc
  | none => .error (.validation (.argMissing block.op name))

/-- The event that a block names. -/
def eventName (block : Block) : Except Error String := do
  let event ← block.stringArg "event"
  if event.isEmpty then throw (.validation (.argEmpty block.op "event"))
  return event

/-- The last result if the block asks for it, and otherwise what it holds itself. -/
def body (block : Block) : Body :=
  match block.arg? "body_from" with
  | some (.string "last") => .last
  | _ => .given ((block.arg? "body").getD (.object []))

def action (policy : Policy) (block : Block) : Except Error Action :=
  match block.op with
  | "idb.get" => do
      block.requireStorage policy
      return .get (← block.stringArg "store") (← block.requireArg "key")
  | "idb.put" => do
      block.requireStorage policy
      return .put (← block.stringArg "store") (← block.requireArg "value")
  | "idb.query" => do
      block.requireStorage policy
      return .query (← block.stringArg "store") ((block.arg? "kql").getD .null)
  | "event.reply" => do return .reply (← block.eventName) block.body
  | "event.emit" => do return .emit (← block.eventName) block.body
  | op => .error (.unsupportedOperation op)

end Block

end StampedPrograms
