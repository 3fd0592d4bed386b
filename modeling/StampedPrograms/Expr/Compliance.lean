import StampedPrograms.Expr.Basic
import StampedPrograms.Policy
import StampedPrograms.Symbols

/-!
Whether a tree keeps to the restrictions put on it: its depth, its calls, and the fields and
parameters it names. A node is checked before its parts, from left to right.
-/

namespace StampedPrograms.Expr

/-- The calls whose first argument names a field. -/
def fieldCalls : List String :=
  ["v", "exists"]

/-- The first argument of a call that names a field. That it is missing is for the lowering to say.
-/
def checkField (policy : ExpressionPolicy) (call : String) : List Expr → Except Error Unit
  | .string name :: _ =>
      if policy.allowsField name then .ok ()
      else .error (.policyViolation (.fieldNotAllowed name))
  | [] => .ok ()
  | _ :: _ => .error (.policyViolation (.fieldNotLiteral call))

/-- What a node may not be or say, its parts apart. -/
def checkNode (policy : ExpressionPolicy) : Expr → Except Error Unit
  | .call name args =>
      if !ExpressionSymbols.isAllowedCall name then
        .error (.policyViolation (.illegalCall name))
      else if fieldCalls.contains name then checkField policy name args
      else .ok ()
  | .param name =>
      if policy.allowsParam name then .ok ()
      else .error (.policyViolation (.parameterNotAllowed name))
  | _ => .ok ()

/-- A node at this depth, which the root has as 1, must not lie too deep. -/
def checkDepth (policy : ExpressionPolicy) (depth : Nat) : Except Error Unit :=
  if policy.maxDepth.toNat < depth then .error (.policyViolation (.tooDeep policy.maxDepth))
  else .ok ()

mutual

def checkFrom (policy : ExpressionPolicy) (depth : Nat) (e : Expr) : Except Error Unit := do
  checkDepth policy depth
  checkNode policy e
  match e with
  | .unary _ operand => checkFrom policy (depth + 1) operand
  | .binary _ left right => do
      checkFrom policy (depth + 1) left
      checkFrom policy (depth + 1) right
  | .ternary cond yes no => do
      checkFrom policy (depth + 1) cond
      checkFrom policy (depth + 1) yes
      checkFrom policy (depth + 1) no
  | .coalesce left right => do
      checkFrom policy (depth + 1) left
      checkFrom policy (depth + 1) right
  | .call _ args => checkArgs policy (depth + 1) args
  | _ => return ()

def checkArgs (policy : ExpressionPolicy) (depth : Nat) : List Expr → Except Error Unit
  | [] => .ok ()
  | arg :: args => do
      checkFrom policy depth arg
      checkArgs policy depth args

end

def check (policy : ExpressionPolicy) (e : Expr) : Except Error Unit :=
  checkFrom policy 1 e

end StampedPrograms.Expr
