import StampedPrograms.Expr.Basic
import StampedPrograms.Digest
import StampedPrograms.Json.Readable

/-!
Expression trees as documents: a record for each node, told apart by its type.
-/

namespace StampedPrograms

def UnaryOp.ofSymbol? (symbol : String) : Option UnaryOp :=
  UnaryOp.all.find? fun op => op.symbol == symbol

def BinaryOp.ofSymbol? (symbol : String) : Option BinaryOp :=
  BinaryOp.all.find? fun op => op.symbol == symbol

namespace Expr

/-- The record of a node. -/
def node (type : String) (fields : List (String × Json)) : Json :=
  .ofPairs (("type", .string type) :: fields)

mutual

def document : Expr → Json
  | .number text => node "number" [("value", .string text)]
  | .string text => node "string" [("value", .string text)]
  | .bool b => node "bool" [("value", .bool b)]
  | .null => node "null" []
  | .score => node "score" []
  | .param name => node "param" [("name", .string name)]
  | .unary op operand => node "unary" [("op", .string op.symbol), ("expr", document operand)]
  | .binary op left right =>
      node "bin" [("op", .string op.symbol), ("left", document left), ("right", document right)]
  | .ternary cond yes no =>
      node "ternary" [("cond", document cond), ("then", document yes), ("else", document no)]
  | .coalesce left right => node "coalesce" [("left", document left), ("right", document right)]
  | .call name args => node "call" [("name", .string name), ("args", .array (documents args))]

def documents : List Expr → List Json
  | [] => []
  | e :: es => document e :: documents es

end

instance : Documented Expr := ⟨document⟩

/-- The tree a document describes. -/
def ofDocument? (doc : Json) : Option Expr := do
  let type : String ← doc.field? "type"
  match type with
  | "number" => return .number (← doc.field? "value")
  | "string" => return .string (← doc.field? "value")
  | "bool" => return .bool (← doc.field? "value")
  | "null" => return .null
  | "score" => return .score
  | "param" => return .param (← doc.field? "name")
  | "unary" => do
      let op ← UnaryOp.ofSymbol? (← doc.field? "op")
      let ⟨operand, _⟩ ← doc.part? "expr"
      return .unary op (← ofDocument? operand)
  | "bin" => do
      let op ← BinaryOp.ofSymbol? (← doc.field? "op")
      let ⟨left, _⟩ ← doc.part? "left"
      let ⟨right, _⟩ ← doc.part? "right"
      return .binary op (← ofDocument? left) (← ofDocument? right)
  | "ternary" => do
      let ⟨cond, _⟩ ← doc.part? "cond"
      let ⟨yes, _⟩ ← doc.part? "then"
      let ⟨no, _⟩ ← doc.part? "else"
      return .ternary (← ofDocument? cond) (← ofDocument? yes) (← ofDocument? no)
  | "coalesce" => do
      let ⟨left, _⟩ ← doc.part? "left"
      let ⟨right, _⟩ ← doc.part? "right"
      return .coalesce (← ofDocument? left) (← ofDocument? right)
  | "call" => do
      let name ← doc.field? "name"
      let ⟨list, _⟩ ← doc.part? "args"
      let args ← list.items?
      return .call name (← args.mapM fun ⟨arg, _⟩ => ofDocument? arg)
  | _ => none
termination_by sizeOf doc
decreasing_by all_goals omega

instance : Readable Expr := ⟨ofDocument?⟩

end Expr

end StampedPrograms
