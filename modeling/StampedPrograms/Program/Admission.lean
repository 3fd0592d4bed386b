import StampedPrograms.Program.Basic
import StampedPrograms.Policy

/-!
Admission: a program may run under a policy only if the policy lists the operation of every block.
-/

namespace StampedPrograms.ProgramPack

/-- The first block whose operation is not listed is the one that is named. -/
def authorize (pack : ProgramPack) (policy : Policy) : Except Error Unit :=
  match pack.blocks.find? fun block => !policy.allowsRoute block.op with
  | some block => .error (.admissionDenied block.op)
  | none => .ok ()

end StampedPrograms.ProgramPack
