import StampedPrograms.Error
import StampedPrograms.Digest
import StampedPrograms.Json.Readable

/-!
Program packs: a named list of blocks, each an operation with a record of arguments. Reading a raw
pack keeps these and drops everything else.
-/

namespace StampedPrograms

structure Block where
  op : String
  args : List (String × Json)

structure Program where
  name : String
  entry : String
  blocks : List Block

/-- The format that packs name. -/
def packFormat : String := "matrix.program.v1"

/-- A program and the format it came in. -/
structure ProgramPack where
  format : String := packFormat
  program : Program

namespace Block

/-- An argument that is there and not null. -/
def arg? (block : Block) (name : String) : Option Json :=
  (Json.object block.args).present? name

def stringArg (block : Block) (name : String) : Except Error String :=
  match block.arg? name with
  | some (.string s) => .ok s
  | _ => .error (.validation (.argNotString block.op name))

instance : Documented Block where
  toJson block := .ofPairs [("op", .string block.op), ("args", .object block.args)]

/-- The block a document describes; `index` is its place in the pack. -/
def normalize (index : Nat) (doc : Json) : Except Error Block := do
  if doc.asObject?.isNone then throw (.validation (.blockNotObject index))
  let op ← match doc.member? "op" with
    | some (.string op) => if op.isEmpty then throw (.validation (.blockOp index)) else pure op
    | _ => throw (.validation (.blockOp index))
  match doc.member? "args" with
  | some (.object args) => return ⟨op, args⟩
  | _ => throw (.validation (.blockArgs index))

/-- The blocks of a list of documents, the first of which has this place. -/
def normalizeAll (index : Nat) : List Json → Except Error (List Block)
  | [] => .ok []
  | doc :: docs => do
      let block ← normalize index doc
      let blocks ← normalizeAll (index + 1) docs
      return block :: blocks

end Block

namespace ProgramPack

def blocks (pack : ProgramPack) : List Block :=
  pack.program.blocks

instance : Documented Program where
  toJson program := .ofPairs [
    ("name", .string program.name),
    ("entry", .string program.entry),
    ("blocks", toJson program.blocks)]

instance : Documented ProgramPack where
  toJson pack := .ofPairs [("format", .string pack.format), ("program", toJson pack.program)]

instance : Readable Block where
  ofJson? doc := do return ⟨← doc.field? "op", ← (← doc.member? "args").asObject?⟩

instance : Readable Program where
  ofJson? doc := do return ⟨← doc.field? "name", ← doc.field? "entry", ← doc.field? "blocks"⟩

/-- A pack that is in its one shape already; nothing is checked. -/
instance : Readable ProgramPack where
  ofJson? doc := do return ⟨← doc.field? "format", ← doc.field? "program"⟩

/-- A text of the program that must be there. -/
def readName (doc : Json) (name : String) : Except Error String :=
  match doc.member? name with
  | some (.string s) => .ok s
  | _ => .error (.validation (.packName name))

def normalize (doc : Json) : Except Error ProgramPack := do
  match doc.member? "format" with
  | some (.string format) => if format ≠ packFormat then throw (.validation .packFormat)
  | _ => throw (.validation .packFormat)
  let program ← match doc.member? "program" with
    | some (.object members) => pure (Json.object members)
    | _ => throw (.validation .packProgram)
  let name ← readName program "name"
  let entry ← readName program "entry"
  let docs ← match program.member? "blocks" with
    | some (.array docs) => pure docs
    | _ => throw (.validation .packBlocks)
  let blocks ← Block.normalizeAll 0 docs
  return { program := { name, entry, blocks } }

def digest (pack : ProgramPack) : String :=
  namespacedDigest "program" pack

end ProgramPack

end StampedPrograms
