import StampedPrograms.Verify.Basic
import StampedPrograms.Program.Run
import StampedPrograms.Program.Admission
import StampedPrograms.Effect.Store

/-!
Conformance sets: programs with what running them on a seeded storage says and writes, pinned for a
table of symbols.
-/

namespace StampedPrograms

structure ExpectedReply where
  event : Option String := none
  input : Json := .null

structure ConformanceExpectation where
  reply : Option ExpectedReply := none
  emits : List Json := []
  writes : List Json := []
  stamp : Option (Stamp ProgramEnvelope) := none

structure ConformanceVector where
  name : String
  program : Json
  policy : Json
  plugins : Option (List String) := none
  seed : Json := .null
  expect : ConformanceExpectation := {}

structure ConformanceSet where
  format : String
  symbolsHash : String
  vectors : List ConformanceVector

/-- The member of a record for a field that may be absent. -/
def optionalMember {α : Type} [Documented α] (name : String) (field : Option α) :
    List (String × Json) :=
  (field.map fun item => (name, toJson item)).toList

instance : Documented ExpectedReply where
  toJson reply := .ofPairs (optionalMember "event" reply.event ++ [("input", reply.input)])

instance : Readable ExpectedReply where
  ofJson? doc := do
    doc.record?
    return ⟨← doc.optionalField? "event", ← doc.fieldOr? "input" .null⟩

instance : Documented ConformanceExpectation where
  toJson expect := .ofPairs (
    optionalMember "reply_event" expect.reply ++
      [("emits", .array expect.emits), ("writes", .array expect.writes)] ++
      optionalMember "abi" expect.stamp)

instance : Readable ConformanceExpectation where
  ofJson? doc := do
    doc.record?
    return {
      reply := ← doc.optionalField? "reply_event"
      emits := ← doc.fieldOr? "emits" []
      writes := ← doc.fieldOr? "writes" []
      stamp := ← doc.optionalField? "abi" }

/-- The state before a run, which holds the seed of the storage. -/
def readSeed? (doc : Json) : Option Json := do
  doc.record?
  doc.fieldOr? "idb" .null

instance : Documented ConformanceVector where
  toJson vector := .ofPairs (
    [("name", .string vector.name), ("program", vector.program), ("policy", vector.policy)] ++
      optionalMember "plugins" vector.plugins ++
      [("pre_state", .ofPairs [("idb", vector.seed)]), ("expect", toJson vector.expect)])

instance : Readable ConformanceVector where
  ofJson? doc := do
    let state : Json ← doc.fieldOr? "pre_state" (.object [])
    return {
      name := ← doc.field? "name"
      program := ← doc.field? "program"
      policy := ← doc.field? "policy"
      plugins := ← doc.optionalField? "plugins"
      seed := ← readSeed? state
      expect := ← doc.fieldOr? "expect" {} }

instance : Documented ConformanceSet where
  toJson set := .ofPairs [
    ("format", .string set.format),
    ("symbols_hash", .string set.symbolsHash),
    ("vectors", toJson set.vectors)]

instance : Readable ConformanceSet where
  ofJson? doc := do
    return ⟨← doc.field? "format", ← doc.field? "symbols_hash", ← doc.field? "vectors"⟩

namespace ConformanceSet

/-- The format that conformance sets name. -/
def setFormat : String := "matrix.conformance.v1"

/-- A set pinned for the current table of symbols. -/
def ofVectors (vectors : List ConformanceVector) : ConformanceSet :=
  ⟨setFormat, ProgramSymbols.v1.digest, vectors⟩

/-- Two components with one canonical text. -/
def checkEqual {α β : Type} [Documented α] [Documented β] (subject : Subject) (expected : α)
    (actual : β) : Except Error Unit :=
  checkSame subject (canonicalValue expected).text (canonicalValue actual).text

/-- An input that is null counts as an empty one. -/
def emptyIfNull : Json → Json
  | .null => .object []
  | doc => doc

/-- What the caller of a vector takes its program to be. -/
def request (vector : ConformanceVector) : VerifyRequest :=
  let default : IssueOptions := {}
  { program := vector.program
    policy := vector.policy
    options := { default with plugins := vector.plugins.getD default.plugins }
    expectedHash := vector.expect.stamp.map Stamp.hash
    claimed := vector.expect.stamp.map Stamp.envelope }

def checkReply (name : String) (expected : ExpectedReply) : Option EventRecord → Except Error Unit
  | none => .error (.abiMismatch (.vector name .reply) "a reply event" "none")
  | some reply => do
      match expected.event with
      | some event => checkSame (.vector name .replyEvent) event reply.event
      | none => pure ()
      checkEqual (.vector name .replyInput) (emptyIfNull expected.input) (emptyIfNull reply.input)

/-- Verifies, admits and runs the program of a vector and compares what it said and wrote. -/
def checkVector (vector : ConformanceVector) : Except Error Unit := do
  let verified ← (request vector).verify
  verified.pack.authorize verified.policy
  let store ← Store.ofSeed vector.seed
  let run := verified.pack.run Store.handler verified.policy store
  match run.failure with
  | some e => throw e
  | none =>
      match vector.expect.reply with
      | some expected => checkReply vector.name expected run.outcome.reply
      | none => pure ()
      checkEqual (.vector vector.name .emissions) vector.expect.emits run.outcome.emits
      checkEqual (.vector vector.name .writes) vector.expect.writes run.state.writes

/-- The number of vectors of a set, all of which hold. -/
def verify (set : ConformanceSet) : Except Error Nat := do
  if set.format ≠ setFormat then throw (.validation (.conformanceFormat set.format))
  checkSame .conformanceSymbols set.symbolsHash ProgramSymbols.v1.digest
  set.vectors.forM checkVector
  return set.vectors.length

end ConformanceSet

end StampedPrograms
