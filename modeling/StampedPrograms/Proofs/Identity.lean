import StampedPrograms.Policy
import StampedPrograms.Proofs.Digest
import StampedPrograms.Proofs.Expr.Identity

/-!
Components are told apart by the texts that are hashed for them: trees, policies, and the restrictions
on expressions. So two of them have one identity only if they are the same or two texts collide.
-/

namespace StampedPrograms

open Value (items_of_record_eq ofJson_bool_inj ofJson_ofUInt32_inj ofJson_ofStrings_inj)

theorem Policy.eq_of_canonicalValue_eq {p q : Policy} (h : canonicalValue p = canonicalValue q) :
    p = q := by
  have hitems := items_of_record_eq h rfl (by simp)
  cases p
  cases q
  simpa [Entries.mapItems, ofJson_bool_inj, ofJson_ofUInt32_inj, ofJson_ofStrings_inj] using hitems

theorem ExpressionPolicy.eq_of_canonicalValue_eq {p q : ExpressionPolicy}
    (h : canonicalValue p = canonicalValue q) : p = q := by
  have hitems := items_of_record_eq h rfl (by simp)
  cases p
  cases q
  simpa [Entries.mapItems, ofJson_ofUInt32_inj, ofJson_ofStrings_inj] using hitems

/-- No two trees, no two policies and no two sets of restrictions share their text. -/
theorem components_apart :
    (∀ e e' : Expr, canonicalText e = canonicalText e' ↔ e = e') ∧
      (∀ p q : Policy, namespacedText "policy" p = namespacedText "policy" q ↔ p = q) ∧
      ∀ p q : ExpressionPolicy, canonicalText p = canonicalText q ↔ p = q := by
  refine ⟨fun e e' => ⟨fun h => ?_, congrArg _⟩, fun p q => ⟨fun h => ?_, congrArg _⟩,
    fun p q => ⟨fun h => ?_, congrArg _⟩⟩
  · exact Expr.eq_of_canonicalValue_eq (canonicalValue_eq_of_canonicalText_eq h)
  · exact Policy.eq_of_canonicalValue_eq (canonicalValue_eq_of_namespacedText_eq h).2
  · exact ExpressionPolicy.eq_of_canonicalValue_eq (canonicalValue_eq_of_canonicalText_eq h)

/-- The same digits as a number and as a string, and the same symbol before and between operands. -/
theorem components_apart_alike :
    canonicalText (Expr.number "1") ≠ canonicalText (Expr.string "1") ∧
      canonicalText (Expr.unary .neg (.number "1")) ≠
        canonicalText (Expr.binary .sub (.number "1") (.number "1")) := by
  obtain ⟨hexpr, -, -⟩ := components_apart
  refine ⟨fun h => ?_, fun h => ?_⟩
  · cases (hexpr _ _).mp h
  · cases (hexpr _ _).mp h

end StampedPrograms
