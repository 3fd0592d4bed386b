import StampedPrograms.Digest
import StampedPrograms.Proofs.Value.UniqueText

/-!
The text that is hashed for a component determines its canonical value, and the name of its kind. So two
components with one identity have one canonical value, unless two different texts have one SHA-256.
-/

namespace StampedPrograms

theorem canonical_canonicalValue {α : Type} [Documented α] (component : α) :
    (canonicalValue component).Canonical :=
  Value.canonical_ofJson _

variable {α β : Type} [Documented α] [Documented β] {component : α} {other : β}

theorem canonicalValue_eq_of_canonicalText_eq (h : canonicalText component = canonicalText other) :
    canonicalValue component = canonicalValue other :=
  Value.eq_of_encode_eq (canonical_canonicalValue _) (canonical_canonicalValue _) h

theorem canonicalValue_eq_of_namespacedText_eq {kind kind' : String}
    (h : namespacedText kind component = namespacedText kind' other) :
    kind = kind' ∧ canonicalValue component = canonicalValue other := by
  have hvalue := Value.eq_of_encode_eq (Value.canonical_tagged kind (canonical_canonicalValue component))
    (Value.canonical_tagged kind' (canonical_canonicalValue other)) h
  simpa [Value.tagged] using hvalue

/-! ### Collisions -/

/-- A text of one list and another text of the other list that share their SHA-256. -/
def Collision (texts others : List (List Char)) : Prop :=
  ∃ s ∈ texts, ∃ t ∈ others, s ≠ t ∧ textDigest s = textDigest t

section

variable {texts others : List (List Char)} (hfree : ¬ Collision texts others)
include hfree

theorem eq_of_textDigest_eq {s t : List Char} (h : textDigest s = textDigest t) (hs : s ∈ texts)
    (ht : t ∈ others) : s = t := by
  apply Decidable.byContradiction
  intro hne
  exact hfree ⟨s, hs, t, ht, hne, h⟩

theorem canonicalValue_eq_of_digest_eq (h : digest component = digest other)
    (hs : canonicalText component ∈ texts) (ht : canonicalText other ∈ others) :
    canonicalValue component = canonicalValue other :=
  canonicalValue_eq_of_canonicalText_eq (eq_of_textDigest_eq hfree h hs ht)

theorem canonicalValue_eq_of_namespacedDigest_eq {kind : String}
    (h : namespacedDigest kind component = namespacedDigest kind other)
    (hs : namespacedText kind component ∈ texts) (ht : namespacedText kind other ∈ others) :
    canonicalValue component = canonicalValue other :=
  (canonicalValue_eq_of_namespacedText_eq (eq_of_textDigest_eq hfree h hs ht)).2

end

end StampedPrograms
