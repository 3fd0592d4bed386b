import StampedPrograms.Digest
import StampedPrograms.Json.Readable

/-!
Stamps: an envelope, which is a record that binds the identities of several components, together
with the identity of the envelope itself.
-/

namespace StampedPrograms

/-- The version of both kinds of envelopes. -/
def envelopeVersion : UInt32 := 1

/-- An envelope with its hash. -/
structure Stamp (E : Type) where
  envelope : E
  hash : String
deriving DecidableEq

namespace Stamp

/-- The stamp whose hash is that of the envelope. -/
def issue {E : Type} [Documented E] (envelope : E) : Stamp E :=
  ⟨envelope, digest envelope⟩

instance {E : Type} [Documented E] : Documented (Stamp E) where
  toJson stamp := .ofPairs [("envelope", toJson stamp.envelope), ("hash", .string stamp.hash)]

instance {E : Type} [Readable E] : Readable (Stamp E) where
  ofJson? doc := do return ⟨← doc.field? "envelope", ← doc.field? "hash"⟩

end Stamp

end StampedPrograms
