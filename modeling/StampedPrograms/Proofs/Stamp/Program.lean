import StampedPrograms.Proofs.Identity
import StampedPrograms.Proofs.Program.Identity
import StampedPrograms.Proofs.Verify

/-!
The stamp of a program binds the program, its policy, its plugins and its target. What is verified with a
hash has the components that the hash was issued for, or else two of the texts that were hashed collide; and
the only envelope that is accepted for a program is the one that is issued for it.
-/

namespace StampedPrograms

namespace ProgramEnvelope

variable {policy policy' : Policy} {pack pack' : ProgramPack} {options options' : IssueOptions}

/-- The texts that are hashed to issue an envelope and its hash, but for those that are the same for all
programs. -/
def hashedTexts (policy : Policy) (pack : ProgramPack) (options : IssueOptions) : List (List Char) :=
  [namespacedText "policy" policy, namespacedText "program" pack,
    namespacedText "plugins" (Utf16.sort options.plugins), canonicalText (issue policy pack options)]

/-- The time is the one field whose value need not give it back. -/
theorem eq_of_canonicalValue_eq {a b : ProgramEnvelope} (h : canonicalValue a = canonicalValue b)
    (htime : a.timestamp = b.timestamp) : a = b := by
  have hitems := Value.items_of_record_eq h rfl (by simp)
  cases a
  cases b
  cases htime
  simpa [Entries.mapItems, Value.ofJson_string_inj, Value.ofJson_ofUInt32_inj] using hitems

/-- No other time than zero is taken for zero, so a check against an issued envelope sees all fields. -/
theorem difference?_eq_none {expected actual : ProgramEnvelope} (h : expected.timestamp = 0) :
    difference? expected actual = none ↔ expected = actual := by
  have hrecord : difference? expected actual = none ↔ _ :=
    Value.record_difference_eq_none rfl (by simp)
  rw [hrecord]
  cases expected
  cases actual
  cases h
  simp [Entries.mapItems, Value.ofJson_string_inj, Value.ofJson_ofUInt32_inj, Value.ofJson_ofUInt64_zero]

/-- From the hash to the identities in the envelope, and from these to the components. -/
theorem components_eq (hfree : ¬ Collision (hashedTexts policy pack options) (hashedTexts policy' pack' options'))
    (h : digest (issue policy pack options) = digest (issue policy' pack' options')) :
    policy = policy' ∧ canonicalText pack = canonicalText pack' ∧ options.target = options'.target ∧
      options.plugins.Perm options'.plugins := by
  have hissued : issue policy pack options = issue policy' pack' options' :=
    eq_of_canonicalValue_eq
      (canonicalValue_eq_of_digest_eq hfree h (by simp [hashedTexts]) (by simp [hashedTexts])) rfl
  have hpolicy : policy.digest = policy'.digest := congrArg policyHash hissued
  have hpack : pack.digest = pack'.digest := congrArg programHash hissued
  have hplugins : capabilitiesDigest options.plugins = capabilitiesDigest options'.plugins :=
    congrArg capabilitiesHash hissued
  refine ⟨?_, ?_, congrArg target hissued, ?_⟩
  · apply Policy.eq_of_canonicalValue_eq
    exact canonicalValue_eq_of_namespacedDigest_eq hfree hpolicy (by simp [hashedTexts])
      (by simp [hashedTexts])
  · have hvalue : canonicalValue pack = canonicalValue pack' :=
      canonicalValue_eq_of_namespacedDigest_eq hfree hpack (by simp [hashedTexts]) (by simp [hashedTexts])
    rw [canonicalText, hvalue, canonicalText]
  · have hvalue : canonicalValue (Utf16.sort options.plugins) = canonicalValue (Utf16.sort options'.plugins) :=
      canonicalValue_eq_of_namespacedDigest_eq hfree hplugins (by simp [hashedTexts]) (by simp [hashedTexts])
    exact Utf16.sort_eq_sort_iff.mp (Value.ofJson_ofStrings_inj.mp hvalue)

end ProgramEnvelope

namespace VerifyRequest

open ProgramEnvelope (issue hashedTexts)

theorem checkHash_eq_ok {request : VerifyRequest} {hash : String} :
    request.checkHash hash = .ok () ↔ ∀ expected, request.expectedHash = some expected → expected = hash := by
  rw [checkHash]
  cases request.expectedHash with
  | none => simp
  | some expected => simp [checkSame_eq_ok]

theorem checkClaim_eq_ok {request : VerifyRequest} {policy : Policy} {pack : ProgramPack}
    {options : IssueOptions} :
    request.checkClaim (issue policy pack options) = .ok () ↔
      ∀ claimed, request.claimed = some claimed → claimed = issue policy pack options := by
  rw [checkClaim]
  cases request.claimed with
  | none => simp
  | some claimed =>
      have hcheck : checkEnvelope .envelopeField (issue policy pack options) claimed = .ok () ↔
          issue policy pack options = claimed :=
        checkEnvelope_eq_ok.trans (ProgramEnvelope.difference?_eq_none rfl)
      simp [hcheck, eq_comm]

/-- A request is verified exactly if its documents are normal, the expected hash is that of the envelope
issued for them, and the claimed envelope is this one. -/
theorem verify_eq_ok {request : VerifyRequest} {v : Verified} :
    request.verify = .ok v ↔
      Policy.normalize request.policy = .ok v.policy ∧ ProgramPack.normalize request.program = .ok v.pack ∧
        v.envelope = issue v.policy v.pack request.options ∧ v.hash = digest v.envelope ∧
        (∀ expected, request.expectedHash = some expected → expected = v.hash) ∧
        ∀ claimed, request.claimed = some claimed → claimed = v.envelope := by
  constructor
  · intro h
    simp only [verify, bind_eq_ok] at h
    obtain ⟨policy, hpolicy, pack, hpack, ⟨⟩, hhash, ⟨⟩, hclaim, h⟩ := h
    cases h
    exact ⟨hpolicy, hpack, rfl, rfl, checkHash_eq_ok.mp hhash, checkClaim_eq_ok.mp hclaim⟩
  · rintro ⟨hpolicy, hpack, henvelope, hhash, hexpected, hclaimed⟩
    obtain ⟨envelope, hash, policy, pack⟩ := v
    dsimp only at hpolicy hpack henvelope hhash hexpected hclaimed
    subst henvelope hhash
    simp only [verify, bind_eq_ok]
    exact ⟨policy, hpolicy, pack, hpack, (), checkHash_eq_ok.mpr hexpected, (),
      checkClaim_eq_ok.mpr hclaimed, rfl⟩

/-- What is verified with the hash issued for some components has their policy, a program with their text,
their target and their plugins, or two texts that were hashed for the one and the other collide. What is
verified with a claimed envelope has no other envelope than this one. -/
theorem bound_by_hash {request : VerifyRequest} {v : Verified} (h : request.verify = .ok v) :
    (∀ policy₀ pack₀ options₀,
      request.expectedHash = some (digest (issue policy₀ pack₀ options₀)) →
      (v.policy = policy₀ ∧ canonicalText v.pack = canonicalText pack₀ ∧
        request.options.target = options₀.target ∧ request.options.plugins.Perm options₀.plugins) ∨
      Collision (hashedTexts v.policy v.pack request.options) (hashedTexts policy₀ pack₀ options₀)) ∧
    ∀ claimed, request.claimed = some claimed → claimed = issue v.policy v.pack request.options := by
  obtain ⟨-, -, henvelope, hhash, hexpected, hclaimed⟩ := verify_eq_ok.mp h
  rw [henvelope] at hhash hclaimed
  refine ⟨fun policy₀ pack₀ options₀ hissued => ?_, hclaimed⟩
  have hsame : digest (issue v.policy v.pack request.options) = digest (issue policy₀ pack₀ options₀) := by
    rw [← hhash, hexpected _ hissued]
  by_cases hcollision :
      Collision (hashedTexts v.policy v.pack request.options) (hashedTexts policy₀ pack₀ options₀)
  · exact .inr hcollision
  · exact .inl (ProgramEnvelope.components_eq hcollision hsame)

/-- A policy document with these routes. -/
def policyDocument (routes : List String) : Json :=
  .ofPairs [("matrix_policy_version", .ofUInt32 1), ("allowed_routes", .ofStrings routes)]

/-- A program that says hello. -/
def hello : ProgramPack where
  program := ⟨"hello", "main", [⟨"event.emit", [("event", .string "hello")]⟩]⟩

/-- The routes and the plugins in another order than when the hash was issued, and a claimed envelope. -/
def reordered (policy₀ : Policy) : VerifyRequest where
  program := toJson hello
  policy := policyDocument ["event.reply", "event.emit"]
  options := { plugins := ["kql", "idb"] }
  expectedHash := some (digest (issue policy₀ hello {}))
  claimed := some (issue policy₀ hello {})

theorem bound_by_hash_reordered :
    ∃ policy₀ v, Policy.normalize (policyDocument ["event.emit", "event.reply"]) = .ok policy₀ ∧
      (reordered policy₀).verify = .ok v ∧
      ((v.policy = policy₀ ∧ canonicalText v.pack = canonicalText hello ∧
        (reordered policy₀).options.target = "host_agnostic" ∧
        (reordered policy₀).options.plugins.Perm ["idb", "kql"]) ∨
      Collision (hashedTexts v.policy v.pack (reordered policy₀).options) (hashedTexts policy₀ hello {})) ∧
      issue policy₀ hello {} = issue v.policy v.pack (reordered policy₀).options := by
  have hsome : (Policy.normalize (policyDocument ["event.emit", "event.reply"])).toOption.isSome = true := by
    decide +kernel
  have hsame : (Policy.normalize (policyDocument ["event.reply", "event.emit"])).toOption =
      (Policy.normalize (policyDocument ["event.emit", "event.reply"])).toOption := by
    decide +kernel
  obtain ⟨policy₀, hpolicy₀⟩ := Option.isSome_iff_exists.mp hsome
  have hpolicy := toOption_eq_some.mp (hsame.trans hpolicy₀)
  have hpack : ProgramPack.normalize (toJson hello) = .ok hello :=
    ProgramPack.normalize_toJson rfl (List.forall_mem_singleton.mpr (by decide))
  have hverified : (reordered policy₀).verify =
      .ok ⟨issue policy₀ hello {}, digest (issue policy₀ hello {}), policy₀, hello⟩ := by
    refine verify_eq_ok.mpr ⟨hpolicy, hpack, rfl, rfl, ?_, ?_⟩
    · rintro _ ⟨⟩
      rfl
    · rintro _ ⟨⟩
      rfl
  obtain ⟨hbound, hclaimed⟩ := bound_by_hash hverified
  exact ⟨policy₀, _, toOption_eq_some.mp hpolicy₀, hverified, hbound policy₀ hello {} rfl, hclaimed _ rfl⟩

end VerifyRequest

end StampedPrograms
