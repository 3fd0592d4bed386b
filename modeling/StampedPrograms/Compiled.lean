import StampedPrograms.Expr.Parser
import StampedPrograms.Expr.Compliance
import StampedPrograms.Expr.Lowering
import StampedPrograms.Stamp.Expression

/-!
Compiling the source of an expression: it is read, held to its restrictions, lowered to a script,
and stamped.
-/

namespace StampedPrograms

structure Compiled where
  script : String
  tree : Expr
  stamp : Option (Stamp ExpressionEnvelope)

namespace Compiled

def ofSource (policy : ExpressionPolicy) (includeStamp : Bool) (source : String) :
    Except Error Compiled := do
  let tree ← Expr.ofSource source
  tree.check policy
  let script ← tree.script
  let stamp := Stamp.issue (ExpressionEnvelope.issue tree policy)
  return ⟨String.ofList script, tree, if includeStamp then some stamp else none⟩

instance : Documented Compiled where
  toJson out := .ofPairs (
    [("painless", .string out.script), ("ast", toJson out.tree)] ++
      (out.stamp.map fun stamp => ("abi", toJson stamp)).toList)

instance : Readable Compiled where
  ofJson? doc := do
    return ⟨← doc.field? "painless", ← doc.field? "ast", ← doc.optionalField? "abi"⟩

end Compiled

/-- Compiles under the options of a caller. -/
def compile (source : String) (options : CompileOptions) : Except Error Compiled := do
  let policy ← options.normalize
  Compiled.ofSource policy options.includeStamp source

/-- Compiles an expression inside a program, under the policy of that program. -/
def compileUnderPolicy (source : String) (policy : Policy) : Except Error Compiled :=
  Compiled.ofSource (.ofPolicy policy) true source

instance : Readable CompileOptions where
  ofJson? doc := do
    doc.record?
    let default : CompileOptions := {}
    return {
      maxDepth := ← doc.fieldSpelled? "maxDepth" "max_depth" default.maxDepth
      fields := ← doc.fieldOr? "fields" default.fields
      params := ← doc.fieldOr? "params" default.params
      includeStamp := ← doc.fieldSpelled? "includeAbi" "include_abi" default.includeStamp }

end StampedPrograms
