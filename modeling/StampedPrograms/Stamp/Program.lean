import StampedPrograms.Stamp.Basic
import StampedPrograms.Policy
import StampedPrograms.Program.Basic
import StampedPrograms.Symbols

/-!
The envelope of a program: it binds the program, its policy, the plugins and the target it is issued
for, and the frozen parts of the environment it runs in.
-/

namespace StampedPrograms

structure ProgramEnvelope where
  abi : String
  abiVersion : UInt32
  surface : String
  target : String
  symbolsHash : String
  policyHash : String
  transpilerHash : String
  programHash : String
  ioSchemaHash : String
  capabilitiesHash : String
  timestamp : UInt64
deriving DecidableEq

/-- The plugins and the target that an envelope is issued for. -/
structure IssueOptions where
  plugins : List String := ["idb", "kql"]
  target : String := "host_agnostic"
deriving DecidableEq

instance : Documented IssueOptions where
  toJson options := .ofPairs [
    ("plugins", .ofStrings options.plugins), ("target", .string options.target)]

instance : Readable IssueOptions where
  ofJson? doc := do
    doc.record?
    let default : IssueOptions := {}
    return {
      plugins := ← doc.fieldOr? "plugins" default.plugins
      target := ← doc.fieldOr? "target" default.target }

namespace ProgramEnvelope

/-- The schemas of what goes in and out of a run. -/
def ioSchema : Json :=
  .ofPairs [
    ("event", .string "kuhul://schema/matrix/event/v1"),
    ("policy", .string "kuhul://schema/matrix/policy/v1"),
    ("program", .string "kuhul://schema/matrix/program/v1"),
    ("abi", .string "kuhul://schema/matrix/abi/v1")]

def ioSchemaDigest : String :=
  namespacedDigest "io" ioSchema

/-- The name of what turns programs into this form. -/
def transpilerId : String := "matrix-runtime:ast:v0.1.0"

def transpilerDigest : String :=
  namespacedDigest "transpiler" transpilerId

/-- The identity of a set of plugins, in whatever order they are listed. -/
def capabilitiesDigest (plugins : List String) : String :=
  namespacedDigest "plugins" (Utf16.sort plugins)

def issue (policy : Policy) (pack : ProgramPack) (options : IssueOptions) : ProgramEnvelope where
  abi := "matrix"
  abiVersion := envelopeVersion
  surface := "matrix.v1"
  target := options.target
  symbolsHash := ProgramSymbols.v1.digest
  policyHash := policy.digest
  transpilerHash := transpilerDigest
  programHash := pack.digest
  ioSchemaHash := ioSchemaDigest
  capabilitiesHash := capabilitiesDigest options.plugins
  timestamp := 0

instance : Documented ProgramEnvelope where
  toJson envelope := .ofPairs [
    ("abi", .string envelope.abi),
    ("abi_version", .ofUInt32 envelope.abiVersion),
    ("surface", .string envelope.surface),
    ("target", .string envelope.target),
    ("symbols_hash", .string envelope.symbolsHash),
    ("policy_hash", .string envelope.policyHash),
    ("transpiler_hash", .string envelope.transpilerHash),
    ("program_hash", .string envelope.programHash),
    ("io_schema_hash", .string envelope.ioSchemaHash),
    ("capabilities_hash", .string envelope.capabilitiesHash),
    ("timestamp", .ofUInt64 envelope.timestamp)]

instance : Readable ProgramEnvelope where
  ofJson? doc := do
    return {
      abi := ← doc.field? "abi"
      abiVersion := ← doc.field? "abi_version"
      surface := ← doc.field? "surface"
      target := ← doc.field? "target"
      symbolsHash := ← doc.field? "symbols_hash"
      policyHash := ← doc.field? "policy_hash"
      transpilerHash := ← doc.field? "transpiler_hash"
      programHash := ← doc.field? "program_hash"
      ioSchemaHash := ← doc.field? "io_schema_hash"
      capabilitiesHash := ← doc.field? "capabilities_hash"
      timestamp := ← doc.field? "timestamp" }

end ProgramEnvelope

end StampedPrograms
