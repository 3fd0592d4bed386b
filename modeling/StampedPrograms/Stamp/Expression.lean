import StampedPrograms.Stamp.Basic
import StampedPrograms.Expr.Document
import StampedPrograms.Policy
import StampedPrograms.Symbols

/-!
The envelope of an expression: it binds the tree, the restrictions it was compiled under, and the
table of symbols.
-/

namespace StampedPrograms

structure ExpressionEnvelope where
  abi : String
  abiVersion : UInt32
  target : String
  targetVersionMajor : UInt32
  symbolsHash : String
  policyHash : String
  astHash : String
deriving DecidableEq

/-- The one language that expressions are lowered to. -/
def scriptTarget : String := "es_painless"

def scriptAbi : String := "scxq2->es_painless"

def scriptVersionMajor : UInt32 := 1

namespace ExpressionEnvelope

def issue (e : Expr) (policy : ExpressionPolicy) : ExpressionEnvelope where
  abi := scriptAbi
  abiVersion := envelopeVersion
  target := scriptTarget
  targetVersionMajor := scriptVersionMajor
  symbolsHash := ExpressionSymbols.v1.digest
  policyHash := digest policy
  astHash := digest e

instance : Documented ExpressionEnvelope where
  toJson envelope := .ofPairs [
    ("abi", .string envelope.abi),
    ("abi_version", .ofUInt32 envelope.abiVersion),
    ("target", .string envelope.target),
    ("target_version_major", .ofUInt32 envelope.targetVersionMajor),
    ("symbols_hash", .string envelope.symbolsHash),
    ("policy_hash", .string envelope.policyHash),
    ("ast_hash", .string envelope.astHash)]

instance : Readable ExpressionEnvelope where
  ofJson? doc := do
    return {
      abi := ← doc.field? "abi"
      abiVersion := ← doc.field? "abi_version"
      target := ← doc.field? "target"
      targetVersionMajor := ← doc.field? "target_version_major"
      symbolsHash := ← doc.field? "symbols_hash"
      policyHash := ← doc.field? "policy_hash"
      astHash := ← doc.field? "ast_hash" }

end ExpressionEnvelope

end StampedPrograms
