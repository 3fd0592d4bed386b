import StampedPrograms.Verify.Basic

/-!
Golden sets: sources of expressions with the scripts and stamps they were compiled to, pinned for a
table of symbols. A set holds as long as compiling the sources again gives the same.
-/

namespace StampedPrograms

structure GoldenExpectation where
  script : String
  stamp : Stamp ExpressionEnvelope
deriving DecidableEq

structure GoldenVector where
  name : String
  source : String
  options : CompileOptions := {}
  expect : GoldenExpectation
deriving DecidableEq

structure GoldenSet where
  format : String
  symbolsHash : String
  vectors : List GoldenVector
deriving DecidableEq

/-- A source to be pinned under a name. -/
structure GoldenCase where
  name : String
  source : String
  options : CompileOptions := {}

instance : Documented GoldenExpectation where
  toJson expect := .ofPairs [("painless", .string expect.script), ("abi", toJson expect.stamp)]

instance : Readable GoldenExpectation where
  ofJson? doc := do return ⟨← doc.field? "painless", ← doc.field? "abi"⟩

instance : Documented GoldenVector where
  toJson vector := .ofPairs [
    ("name", .string vector.name),
    ("scx", .string vector.source),
    ("opts", toJson vector.options),
    ("expect", toJson vector.expect)]

instance : Readable GoldenVector where
  ofJson? doc := do
    return {
      name := ← doc.field? "name"
      source := ← doc.field? "scx"
      options := ← doc.fieldOr? "opts" {}
      expect := ← doc.field? "expect" }

instance : Documented GoldenSet where
  toJson set := .ofPairs [
    ("format", .string set.format),
    ("symbols_hash", .string set.symbolsHash),
    ("vectors", toJson set.vectors)]

instance : Readable GoldenSet where
  ofJson? doc := do
    return ⟨← doc.field? "format", ← doc.field? "symbols_hash", ← doc.field? "vectors"⟩

instance : Readable GoldenCase where
  ofJson? doc := do
    return {
      name := ← doc.field? "name"
      source := ← doc.field? "scx"
      options := ← doc.fieldOr? "opts" {} }

namespace GoldenSet

/-- The format that golden sets name. -/
def setFormat : String := "scxq2-es.golden.v1"

/-- Compiles the source of a case and pins the result; vectors are always stamped. -/
def recordCase (item : GoldenCase) : Except Error GoldenVector := do
  let options := { item.options with includeStamp := true }
  let out ← compile item.source options
  match out.stamp with
  | none => throw (.validation (.vectorWithoutStamp item.name))
  | some stamp => return ⟨item.name, item.source, options, ⟨out.script, stamp⟩⟩

/-- The set that pins these cases. -/
def record (items : List GoldenCase) : Except Error GoldenSet := do
  return ⟨setFormat, ExpressionSymbols.v1.digest, ← items.mapM recordCase⟩

/-- Compiles the source again and compares with what was pinned. -/
def checkVector (vector : GoldenVector) : Except Error Unit := do
  let options := { vector.options with includeStamp := true }
  let out ← compile vector.source options
  out.verify options
  checkSame (.vector vector.name .script) vector.expect.script out.script
  match out.stamp with
  | none => throw (.validation (.vectorWithoutStamp vector.name))
  | some stamp =>
      checkSame (.vector vector.name .stampHash) vector.expect.stamp.hash stamp.hash
      checkEnvelope (fun field => .vector vector.name (.envelopeField field))
        vector.expect.stamp.envelope stamp.envelope

/-- The number of vectors of a set, all of which hold. -/
def verify (set : GoldenSet) : Except Error Nat := do
  if set.format ≠ setFormat then throw (.validation (.goldenFormat set.format))
  checkSame .goldenSymbols set.symbolsHash ExpressionSymbols.v1.digest
  set.vectors.forM checkVector
  return set.vectors.length

end GoldenSet

end StampedPrograms
