import StampedPrograms.Proofs.Identity
import StampedPrograms.Proofs.Verify

/-!
The stamp of an expression binds its tree and the restrictions it was compiled under: whatever is verified
with the hash of a compiled result has its tree, under the same restrictions, or else two of the texts that
were hashed collide.
-/

namespace StampedPrograms

namespace ExpressionEnvelope

variable {e e' : Expr} {policy policy' : ExpressionPolicy}

/-- The texts that are hashed to issue an envelope and its stamp, but for the table of symbols. -/
def hashedTexts (e : Expr) (policy : ExpressionPolicy) : List (List Char) :=
  [canonicalText e, canonicalText policy, canonicalText (issue e policy)]

theorem eq_of_canonicalValue_eq {a b : ExpressionEnvelope} (h : canonicalValue a = canonicalValue b) :
    a = b := by
  have hitems := Value.items_of_record_eq h rfl (by simp)
  cases a
  cases b
  simpa [Entries.mapItems, Value.ofJson_string_inj, Value.ofJson_ofUInt32_inj] using hitems

/-- From the one hash of two stamps to the identities in their envelopes, and from these to the components.
-/
theorem components_eq (hfree : ¬ Collision (hashedTexts e policy) (hashedTexts e' policy'))
    (h : digest (issue e policy) = digest (issue e' policy')) : e = e' ∧ policy = policy' := by
  have hissued : issue e policy = issue e' policy' :=
    eq_of_canonicalValue_eq
      (canonicalValue_eq_of_digest_eq hfree h (by simp [hashedTexts]) (by simp [hashedTexts]))
  have htree : digest e = digest e' := congrArg astHash hissued
  have hpolicy : digest policy = digest policy' := congrArg policyHash hissued
  constructor
  · apply Expr.eq_of_canonicalValue_eq
    exact canonicalValue_eq_of_digest_eq hfree htree (by simp [hashedTexts]) (by simp [hashedTexts])
  · apply ExpressionPolicy.eq_of_canonicalValue_eq
    exact canonicalValue_eq_of_digest_eq hfree hpolicy (by simp [hashedTexts]) (by simp [hashedTexts])

end ExpressionEnvelope

namespace Compiled

open ExpressionEnvelope (hashedTexts)

/-- What is verified with the hash of a compiled result has the tree of this result and is held to the same
restrictions, or two texts that were hashed for the one and the other collide. -/
theorem bound_by_stamp {source₀ : String} {options₀ options : CompileOptions} {out₀ out : Compiled}
    {stamp₀ stamp : Stamp ExpressionEnvelope} (hcompile : compile source₀ options₀ = .ok out₀)
    (hstamp₀ : out₀.stamp = some stamp₀) (hstamp : out.stamp = some stamp) (hhash : stamp.hash = stamp₀.hash)
    (hverify : out.verify options = .ok ()) :
    ∃ policy₀ policy, options₀.normalize = .ok policy₀ ∧ options.normalize = .ok policy ∧
      ((out.tree = out₀.tree ∧ options.normalize = options₀.normalize) ∨
        Collision (hashedTexts out.tree policy) (hashedTexts out₀.tree policy₀)) := by
  obtain ⟨policy₀, hpolicy₀, hcompile⟩ := bind_eq_ok.mp hcompile
  obtain ⟨-, -, -, hissued₀⟩ := ofSource_eq_ok.mp hcompile
  obtain ⟨policy, hpolicy, hissued⟩ := verify_eq_ok.mp hverify
  refine ⟨policy₀, policy, hpolicy₀, hpolicy, ?_⟩
  have hsame : digest (ExpressionEnvelope.issue out.tree policy) =
      digest (ExpressionEnvelope.issue out₀.tree policy₀) := by
    split at hissued₀
    · rw [hstamp, Option.some.injEq] at hissued
      rw [hstamp₀, Option.some.injEq] at hissued₀
      rw [hissued, hissued₀] at hhash
      exact hhash
    · rw [hstamp₀] at hissued₀
      cases hissued₀
  by_cases hcollision : Collision (hashedTexts out.tree policy) (hashedTexts out₀.tree policy₀)
  · exact .inr hcollision
  · obtain ⟨htree, hrestrictions⟩ := ExpressionEnvelope.components_eq hcollision hsame
    exact .inl ⟨htree, by rw [hpolicy, hpolicy₀, hrestrictions]⟩

/-- A field read and compiled under one order of the fields, and verified with another script under another
order. -/
theorem bound_by_stamp_reordered :
    ∃ (out₀ out : Compiled) (stamp : Stamp ExpressionEnvelope),
      compile "@v('a')" ⟨32, ["b", "a"], [], true⟩ = .ok out₀ ∧ out₀.stamp = some stamp ∧
      out.stamp = some stamp ∧ out.script = "return 2;" ∧ out.verify ⟨32, ["a", "b"], [], true⟩ = .ok () ∧
      ∃ policy₀ policy, CompileOptions.normalize ⟨32, ["b", "a"], [], true⟩ = .ok policy₀ ∧
        CompileOptions.normalize ⟨32, ["a", "b"], [], true⟩ = .ok policy ∧
        ((out.tree = out₀.tree ∧ CompileOptions.normalize ⟨32, ["a", "b"], [], true⟩ =
            CompileOptions.normalize ⟨32, ["b", "a"], [], true⟩) ∨
          Collision (hashedTexts out.tree policy) (hashedTexts out₀.tree policy₀)) := by
  have hcompiles : (compile "@v('a')" ⟨32, ["b", "a"], [], true⟩).toOption.isSome = true := by
    decide +kernel
  obtain ⟨out₀, hout⟩ := Option.isSome_iff_exists.mp hcompiles
  rw [toOption_eq_some] at hout
  obtain ⟨policy, hpolicy, hissued⟩ := verify_eq_ok.mp (verify_of_compile hout rfl)
  have hsorted : CompileOptions.normalize ⟨32, ["a", "b"], [], true⟩ =
      CompileOptions.normalize ⟨32, ["b", "a"], [], true⟩ := by rfl
  have hverified : verify { out₀ with script := "return 2;" } ⟨32, ["a", "b"], [], true⟩ = .ok () :=
    verify_eq_ok.mpr ⟨policy, hsorted.trans hpolicy, hissued⟩
  exact ⟨out₀, { out₀ with script := "return 2;" }, _, hout, hissued, hissued, rfl, hverified,
    bound_by_stamp hout hissued hissued rfl hverified⟩

end Compiled

end StampedPrograms
