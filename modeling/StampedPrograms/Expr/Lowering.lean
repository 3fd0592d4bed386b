import StampedPrograms.Expr.Basic
import StampedPrograms.Symbols
import StampedPrograms.Error
import StampedPrograms.Text.Quoted
import StampedPrograms.Text.Size

/-!
Lowering expression trees to scripts. Every operation is put in parentheses, and every text that
comes from a source stands in quotes or was a name or number of the source.
-/

namespace StampedPrograms.Expr

/-- The most bytes of a script. -/
def maxScriptBytes : Nat := 65535

/-- The value of a field that is not there, unless a call gives another. -/
def missingFieldDefault : List Char :=
  "0.0".toList

def scriptTooLong : Error :=
  .policyViolation (.scriptTooLong maxScriptBytes)

def isUnary : Expr → Bool
  | .unary _ _ => true
  | _ => false

/-- A call of the target's library. -/
def libraryCall (name : String) (args : List (List Char)) : List Char :=
  "Math.".toList ++ name.toList ++ '(' :: List.intercalate [',', ' '] args ++ [')']

/-- Whether the document has the field and a value in it. -/
def presence (field : List Char) : List Char :=
  "doc.containsKey(".toList ++ field ++ ") && !doc[".toList ++ field ++ "].empty".toList

/-- The value of the field, or the default if it has none. -/
def fieldValue (field default : List Char) : List Char :=
  '(' :: presence field ++ " ? doc[".toList ++ field ++ "].value : ".toList ++ default ++ [')']

/-- A call once its arguments are lowered. -/
def lowerCall (name : String) (args : List (List Char)) : Except Error (List Char) :=
  match name, args with
  | "v", [field] => .ok (fieldValue field missingFieldDefault)
  | "v", field :: default :: _ => .ok (fieldValue field default)
  | "exists", [field] => .ok ('(' :: presence field ++ [')'])
  | "clamp", [x, lo, hi] => .ok (libraryCall "min" [hi, libraryCall "max" [lo, x]])
  | name, [left, right] =>
      if ["min", "max", "pow"].contains name then .ok (libraryCall name [left, right])
      else .error (.policyViolation (.noLowering name))
  | name, [x] =>
      if ["abs", "floor", "ceil", "round", "log", "sqrt"].contains name then
        .ok (libraryCall name [x])
      else .error (.policyViolation (.noLowering name))
  | name, _ => .error (.policyViolation (.noLowering name))

/-- The call must be in the table and have a number of arguments that the table allows. -/
def checkArity (name : String) (count : Nat) : Except Error Unit :=
  match ExpressionSymbols.v1.call? name with
  | none => .error (.policyViolation (.illegalCall name))
  | some spec =>
      if count < spec.arityMin.toNat ∨ spec.arityMax.toNat < count then
        .error (.callArity name spec.arityMin.toNat spec.arityMax.toNat count)
      else .ok ()

mutual

/-- The text of a tree. The left side of a coalescing is written twice, so a left side of more than
half a script is given up at once. -/
def lower : Expr → Except Error (List Char)
  | .number text => .ok text.toList
  | .string text => .ok (Quoted.script text)
  | .bool b => .ok (if b then "true".toList else "false".toList)
  | .null => .ok "null".toList
  | .score => .ok "_score".toList
  | .param name => .ok ("params.".toList ++ name.toList)
  | .unary op operand => do
      let inner ← lower operand
      return op.symbol.toList ++ if operand.isUnary then '(' :: inner ++ [')'] else inner
  | .binary op left right => do
      let left ← lower left
      let right ← lower right
      return '(' :: left ++ ' ' :: op.symbol.toList ++ ' ' :: right ++ [')']
  | .ternary cond yes no => do
      let cond ← lower cond
      let yes ← lower yes
      let no ← lower no
      return '(' :: cond ++ " ? ".toList ++ yes ++ " : ".toList ++ no ++ [')']
  | .coalesce left right => do
      let left ← lower left
      if maxScriptBytes / 2 < byteLength left then throw scriptTooLong
      let right ← lower right
      return '(' :: left ++ " != null ? ".toList ++ left ++ " : ".toList ++ right ++ [')']
  | .call name args => do
      checkArity name args.length
      lowerCall name (← lowerAll args)

def lowerAll : List Expr → Except Error (List (List Char))
  | [] => .ok []
  | e :: es => do
      let text ← lower e
      let texts ← lowerAll es
      return text :: texts

end

/-- The script that returns the value of a tree, if it is not too long. -/
def script (e : Expr) : Except Error (List Char) := do
  let text := "return ".toList ++ (← lower e) ++ [';']
  if maxScriptBytes < byteLength text then throw scriptTooLong
  return text

end StampedPrograms.Expr
