import StampedPrograms.Compiled
import StampedPrograms.Stamp.Program
import StampedPrograms.Stamp.Difference

/-!
Verification by recomputing: a stamp holds if the envelope issued for the same components is the
same.
-/

namespace StampedPrograms

/-- The first field in which envelopes differ is the subject of the mismatch. -/
def checkEnvelope {E : Type} [Documented E] (subject : String → Subject) (expected actual : E) :
    Except Error Unit :=
  match difference? expected actual with
  | some found => .error (.abiMismatch (subject found.field) found.expected found.actual)
  | none => .ok ()

/-- Two texts that must be the same. -/
def checkSame (subject : Subject) (expected actual : String) : Except Error Unit :=
  if expected = actual then .ok () else .error (.abiMismatch subject expected actual)

namespace Compiled

/-- Whether the stamp of a result is the one for its tree under these options. -/
def verify (out : Compiled) (options : CompileOptions) : Except Error Unit := do
  match out.stamp with
  | none => throw (.validation .noStamp)
  | some stamp =>
      let policy ← options.normalize
      let envelope := ExpressionEnvelope.issue out.tree policy
      checkSame .stampHash (digest envelope) stamp.hash
      checkEnvelope .envelopeField envelope stamp.envelope
      checkSame .policyHash (digest policy) stamp.envelope.policyHash
      checkSame .symbolsHash ExpressionSymbols.v1.digest stamp.envelope.symbolsHash

end Compiled

/-- A raw program with its policy, and what its caller takes it to be. -/
structure VerifyRequest where
  program : Json
  policy : Json
  options : IssueOptions := {}
  expectedHash : Option String := none
  claimed : Option ProgramEnvelope := none

/-- A program whose identity was recomputed, and was as expected. -/
structure Verified where
  envelope : ProgramEnvelope
  hash : String
  policy : Policy
  pack : ProgramPack

namespace VerifyRequest

/-- The hash against the recomputed one, if the caller expects one. -/
def checkHash (request : VerifyRequest) (hash : String) : Except Error Unit :=
  match request.expectedHash with
  | some expected => checkSame .stampHash expected hash
  | none => .ok ()

/-- The claimed envelope against the recomputed one, if the caller claims one. -/
def checkClaim (request : VerifyRequest) (envelope : ProgramEnvelope) : Except Error Unit :=
  match request.claimed with
  | some claimed => checkEnvelope .envelopeField envelope claimed
  | none => .ok ()

def verify (request : VerifyRequest) : Except Error Verified := do
  let policy ← Policy.normalize request.policy
  let pack ← ProgramPack.normalize request.program
  let envelope := ProgramEnvelope.issue policy pack request.options
  let hash := digest envelope
  request.checkHash hash
  request.checkClaim envelope
  return ⟨envelope, hash, policy, pack⟩

end VerifyRequest

end StampedPrograms
