import StampedPrograms.Digest

/-!
The frozen tables of symbols: which operations and effects programs have, which operators and calls
expressions have. A table's identity is bound into every stamp, so stamps do not outlive a change of
the table.
-/

namespace StampedPrograms

structure ProgramSymbols where
  version : UInt32
  ops : List String
  effects : List String

namespace ProgramSymbols

def v1 : ProgramSymbols where
  version := 1
  ops := ["event.reply", "event.emit", "event.stream.subscribe", "idb.get", "idb.put", "idb.query",
    "kql.compile"]
  effects := ["reply", "emit", "write", "read"]

instance : Documented ProgramSymbols where
  toJson symbols := .ofPairs [
    ("version", .ofUInt32 symbols.version),
    ("ops", .ofStrings symbols.ops),
    ("effects", .ofStrings symbols.effects)]

def digest (symbols : ProgramSymbols) : String :=
  namespacedDigest "symbols" symbols

def hasOp (symbols : ProgramSymbols) (op : String) : Bool :=
  symbols.ops.contains op

end ProgramSymbols

/-- A call of the expression language: how many arguments it takes and what it is lowered to. -/
structure CallSpec where
  name : String
  arityMin : UInt64
  arityMax : UInt64
  signature : String
  lowersTo : String

instance : Documented CallSpec where
  toJson spec := .ofPairs [
    ("arity_min", .ofUInt64 spec.arityMin),
    ("arity_max", .ofUInt64 spec.arityMax),
    ("signature", .string spec.signature),
    ("lowers_to", .string spec.lowersTo)]

structure ExpressionSymbols where
  ops : List (String × String)
  calls : List CallSpec

namespace ExpressionSymbols

def v1 : ExpressionSymbols where
  ops := [("or", "||"), ("and", "&&"), ("not", "!"), ("ternary", "?:"), ("add", "+"), ("sub", "-"),
    ("mul", "*"), ("div", "/"), ("mod", "%")]
  calls := [
    ⟨"v", 1, 2, "@v(fieldName[, default])",
      "(doc.containsKey(field) && !doc[field].empty ? doc[field].value : default)"⟩,
    ⟨"exists", 1, 1, "@exists(fieldName)", "(doc.containsKey(field) && !doc[field].empty)"⟩,
    ⟨"clamp", 3, 3, "@clamp(x, lo, hi)", "Math.min(hi, Math.max(lo, x))"⟩,
    ⟨"min", 2, 2, "@min(a,b)", "Math.min(a,b)"⟩,
    ⟨"max", 2, 2, "@max(a,b)", "Math.max(a,b)"⟩,
    ⟨"abs", 1, 1, "@abs(x)", "Math.abs(x)"⟩,
    ⟨"floor", 1, 1, "@floor(x)", "Math.floor(x)"⟩,
    ⟨"ceil", 1, 1, "@ceil(x)", "Math.ceil(x)"⟩,
    ⟨"round", 1, 1, "@round(x)", "Math.round(x)"⟩,
    ⟨"log", 1, 1, "@log(x)", "Math.log(x)"⟩,
    ⟨"sqrt", 1, 1, "@sqrt(x)", "Math.sqrt(x)"⟩,
    ⟨"pow", 2, 2, "@pow(a,b)", "Math.pow(a,b)"⟩]

/-- The calls an expression may make. -/
def allowedCalls : List String :=
  ["v", "exists", "clamp", "min", "max", "abs", "floor", "ceil", "round", "log", "sqrt", "pow"]

def isAllowedCall (name : String) : Bool :=
  allowedCalls.contains name

/-- The first call of that name. -/
def call? (symbols : ExpressionSymbols) (name : String) : Option CallSpec :=
  symbols.calls.find? fun spec => spec.name == name

/-- Operators and calls by name; of several under one name the last one counts. -/
instance : Documented ExpressionSymbols where
  toJson symbols := .ofPairs [
    ("ops", .ofPairs (symbols.ops.map fun op => (op.1, .string op.2))),
    ("calls", .ofPairs (symbols.calls.map fun spec => (spec.name, toJson spec)))]

/-- The table together with the allowed calls, which is what its identity covers. -/
def binding (symbols : ExpressionSymbols) : Json :=
  .ofPairs [
    ("symbol_table_v1", toJson symbols),
    ("allowed_calls", .ofStrings (Utf16.sort allowedCalls))]

def digest (symbols : ExpressionSymbols) : String :=
  StampedPrograms.digest symbols.binding

end ExpressionSymbols

end StampedPrograms
