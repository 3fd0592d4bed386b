import StampedPrograms.Sha256
import StampedPrograms.Value.Encoding
import StampedPrograms.Value.Document

/-!
Identities: the SHA-256 of canonical texts. A component is hashed through its document, bare or as
the single entry of a map that names its kind.
-/

namespace StampedPrograms

/-- The identity of a text, in 64 hexadecimal digits. -/
def textDigest (text : List Char) : String :=
  Sha256.hexOf (text.flatMap String.utf8EncodeChar)

def Value.digest (v : Value) : String :=
  textDigest v.encode

/-- A value as a component of a kind. -/
def Value.inNamespace (kind : String) (v : Value) : Value :=
  .tagged kind v

/-- Things that are written as JSON documents. -/
class Documented (α : Type) where
  toJson : α → Json

export Documented (toJson)

instance : Documented Json := ⟨id⟩

instance : Documented String := ⟨.string⟩

instance {α : Type} [Documented α] : Documented (List α) := ⟨fun items => .array (items.map toJson)⟩

/-- The canonical value of a component. -/
def canonicalValue {α : Type} [Documented α] (component : α) : Value :=
  .ofJson (toJson component)

/-- The text that is hashed for a component. -/
def canonicalText {α : Type} [Documented α] (component : α) : List Char :=
  (canonicalValue component).encode

/-- The text that is hashed for a component of a kind. -/
def namespacedText {α : Type} [Documented α] (kind : String) (component : α) : List Char :=
  ((canonicalValue component).inNamespace kind).encode

def digest {α : Type} [Documented α] (component : α) : String :=
  textDigest (canonicalText component)

def namespacedDigest {α : Type} [Documented α] (kind : String) (component : α) : String :=
  textDigest (namespacedText kind component)

end StampedPrograms
