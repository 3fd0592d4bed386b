import StampedPrograms.Verify.Basic
import StampedPrograms.Proofs.Compiled
import StampedPrograms.Proofs.Stamp.Difference

/-!
What the verification of a compiled result accepts: exactly the stamp that is issued for the tree under
the options. What it refuses it refuses for a missing stamp, a depth out of bounds, or the first part of
the stamp that is otherwise.
-/

namespace StampedPrograms

/-! ### Checks -/

theorem checkSame_eq_ok {subject : Subject} {expected actual : String} :
    checkSame subject expected actual = .ok () ↔ expected = actual := by
  rw [checkSame]
  split
  · next h => exact iff_of_true rfl h
  · next h => exact iff_of_false (by rintro ⟨⟩) h

theorem checkSame_eq_error {subject : Subject} {expected actual : String} {e : Error} :
    checkSame subject expected actual = .error e ↔
      expected ≠ actual ∧ e = .abiMismatch subject expected actual := by
  rw [checkSame]
  split
  · next h => simp [h]
  · next h => simp [h, eq_comm]

theorem checkEnvelope_eq_ok {E : Type} [Documented E] {subject : String → Subject} {expected actual : E} :
    checkEnvelope subject expected actual = .ok () ↔ difference? expected actual = none := by
  rw [checkEnvelope]
  cases difference? expected actual <;> simp

theorem checkEnvelope_eq_error {E : Type} [Documented E] {subject : String → Subject} {expected actual : E}
    {e : Error} :
    checkEnvelope subject expected actual = .error e ↔
      ∃ found, difference? expected actual = some found ∧
        e = .abiMismatch (subject found.field) found.expected found.actual := by
  rw [checkEnvelope]
  cases difference? expected actual <;> simp [eq_comm]

section Sets

variable {α : Type} {format wanted pinned current : String} {refused : Error} {subject : Subject}
  {check : α → Except Error Unit} {items : List α}

/-- The number of items of a pinned set, after its format, its symbols and all its items are checked. -/
def checkSet (format wanted : String) (refused : Error) (subject : Subject) (pinned current : String)
    (check : α → Except Error Unit) (items : List α) : Except Error Nat := do
  if format ≠ wanted then throw refused
  checkSame subject pinned current
  items.forM check
  return items.length

theorem checkSet_of_format (h : format = wanted) :
    checkSet format wanted refused subject pinned current check items =
      checkSame subject pinned current >>= fun _ => items.forM check >>= fun _ => .ok items.length := by
  have hmatches : ¬ format ≠ wanted := fun hne => hne h
  rw [checkSet, if_neg hmatches]
  rfl

theorem checkSet_eq_ok {n : Nat} :
    checkSet format wanted refused subject pinned current check items = .ok n ↔
      format = wanted ∧ pinned = current ∧ n = items.length ∧ ∀ item ∈ items, check item = .ok () := by
  by_cases hformat : format = wanted
  · rw [checkSet_of_format hformat, check_bind_eq_ok, check_bind_eq_ok, checkSame_eq_ok, forM_eq_ok,
      Except.ok.injEq]
    constructor
    · rintro ⟨hsymbols, hitems, rfl⟩
      exact ⟨hformat, hsymbols, rfl, hitems⟩
    · rintro ⟨-, hsymbols, rfl, hitems⟩
      exact ⟨hsymbols, hitems, rfl⟩
  · rw [checkSet, if_pos hformat]
    exact iff_of_false (by rintro ⟨⟩) fun h => hformat h.1

end Sets

/-! ### Envelopes of expressions -/

namespace ExpressionEnvelope

def fieldNames : List String :=
  ["abi", "abi_version", "target", "target_version_major", "symbols_hash", "policy_hash", "ast_hash"]

theorem difference?_eq_none {expected actual : ExpressionEnvelope} :
    difference? expected actual = none ↔ expected = actual := by
  have hrecord : difference? expected actual = none ↔ _ :=
    Value.record_difference_eq_none rfl (by simp)
  rw [hrecord]
  cases expected
  cases actual
  simp [Entries.mapItems, Value.ofJson_string_inj, Value.ofJson_ofUInt32_inj]

theorem mem_fieldNames_of_difference {expected actual : ExpressionEnvelope} {found : Difference}
    (h : difference? expected actual = some found) : found.field ∈ fieldNames :=
  Value.field_of_record_difference h rfl

end ExpressionEnvelope

/-- The restrictions of a caller's options are those with the lists sorted, if the depth is in bounds. -/
theorem CompileOptions.normalize_eq_ok {options : CompileOptions} {policy : ExpressionPolicy} :
    options.normalize = .ok policy ↔
      (1 ≤ options.maxDepth.toNat ∧ options.maxDepth.toNat ≤ maxDepthLimit) ∧
        policy = ⟨options.maxDepth, Utf16.sort options.fields, Utf16.sort options.params⟩ := by
  rw [normalize]
  split
  · next h => simp [h, eq_comm]
  · next h => simp [h]

theorem CompileOptions.normalize_eq_error {options : CompileOptions} {e : Error} :
    options.normalize = .error e ↔
      ¬ (1 ≤ options.maxDepth.toNat ∧ options.maxDepth.toNat ≤ maxDepthLimit) ∧
        e = .validation (.optionDepth options.maxDepth) := by
  rw [normalize]
  split
  · next h => simp [h]
  · next h => simp [h, eq_comm]

/-! ### Stamps -/

section Stamps

variable {tree : Expr} {policy : ExpressionPolicy} {stamp : Stamp ExpressionEnvelope}

/-- The checks of a stamp against the one that is issued for the tree. -/
def checkStamp (tree : Expr) (policy : ExpressionPolicy) (stamp : Stamp ExpressionEnvelope) :
    Except Error Unit := do
  let envelope := ExpressionEnvelope.issue tree policy
  checkSame .stampHash (digest envelope) stamp.hash
  checkEnvelope .envelopeField envelope stamp.envelope
  checkSame .policyHash (digest policy) stamp.envelope.policyHash
  checkSame .symbolsHash ExpressionSymbols.v1.digest stamp.envelope.symbolsHash

theorem checkStamp_eq_ok :
    checkStamp tree policy stamp = .ok () ↔ stamp = .issue (.issue tree policy) := by
  obtain ⟨envelope, hash⟩ := stamp
  constructor
  · intro h
    obtain ⟨⟨⟩, hhash, h⟩ := bind_eq_ok.mp h
    obtain ⟨⟨⟩, henvelope, -⟩ := bind_eq_ok.mp h
    have hsame := ExpressionEnvelope.difference?_eq_none.mp (checkEnvelope_eq_ok.mp henvelope)
    rw [Stamp.issue, checkSame_eq_ok.mp hhash, hsame]
  · intro h
    cases h
    have henvelope : checkEnvelope .envelopeField (ExpressionEnvelope.issue tree policy)
        (ExpressionEnvelope.issue tree policy) = .ok () :=
      checkEnvelope_eq_ok.mpr (ExpressionEnvelope.difference?_eq_none.mpr rfl)
    exact bind_eq_ok.mpr ⟨(), checkSame_eq_ok.mpr rfl, bind_eq_ok.mpr ⟨(), henvelope,
      bind_eq_ok.mpr ⟨(), checkSame_eq_ok.mpr rfl, checkSame_eq_ok.mpr rfl⟩⟩⟩

/-- A stamp fails for its hash or for the first field of its envelope that is otherwise. The hashes of
the restrictions and of the symbols are fields, so the checks of these two never fail. -/
theorem mismatch_of_checkStamp {e : Error} (h : checkStamp tree policy stamp = .error e) :
    ∃ subject expected actual, e = .abiMismatch subject expected actual ∧
      (subject = .stampHash ∨ ∃ field ∈ ExpressionEnvelope.fieldNames, subject = .envelopeField field) := by
  rcases bind_eq_error.mp h with hhash | ⟨⟨⟩, -, h⟩
  · exact ⟨_, _, _, (checkSame_eq_error.mp hhash).2, .inl rfl⟩
  rcases bind_eq_error.mp h with henvelope | ⟨⟨⟩, henvelope, h⟩
  · obtain ⟨found, hfound, he⟩ := checkEnvelope_eq_error.mp henvelope
    exact ⟨_, _, _, he, .inr ⟨_, ExpressionEnvelope.mem_fieldNames_of_difference hfound, rfl⟩⟩
  have hsame := ExpressionEnvelope.difference?_eq_none.mp (checkEnvelope_eq_ok.mp henvelope)
  rcases bind_eq_error.mp h with hpolicy | ⟨⟨⟩, -, hsymbols⟩
  · exact absurd (congrArg ExpressionEnvelope.policyHash hsame) (checkSame_eq_error.mp hpolicy).1
  · exact absurd (congrArg ExpressionEnvelope.symbolsHash hsame) (checkSame_eq_error.mp hsymbols).1

end Stamps

namespace Compiled

/-! ### Compiled results -/

theorem verify_none {out : Compiled} (h : out.stamp = none) (options : CompileOptions) :
    out.verify options = .error (.validation .noStamp) := by
  rw [verify, h]
  rfl

theorem verify_some {out : Compiled} {stamp : Stamp ExpressionEnvelope} (h : out.stamp = some stamp)
    (options : CompileOptions) :
    out.verify options = options.normalize >>= fun policy => checkStamp out.tree policy stamp := by
  rw [verify, h]
  rfl

theorem verify_eq_ok {out : Compiled} {options : CompileOptions} :
    out.verify options = .ok () ↔ ∃ policy, options.normalize = .ok policy ∧
      out.stamp = some (Stamp.issue (ExpressionEnvelope.issue out.tree policy)) := by
  cases hstamp : out.stamp with
  | none => simp [verify_none hstamp]
  | some stamp => simp only [verify_some hstamp, bind_eq_ok, checkStamp_eq_ok, Option.some.injEq]

theorem verify_of_compile {source : String} {options : CompileOptions} {out : Compiled}
    (h : compile source options = .ok out) (hstamp : options.includeStamp = true) :
    out.verify options = .ok () := by
  rw [compile, bind_eq_ok] at h
  obtain ⟨policy, hpolicy, h⟩ := h
  obtain ⟨-, -, -, hissued⟩ := ofSource_eq_ok.mp h
  rw [hstamp, if_pos rfl] at hissued
  exact verify_eq_ok.mpr ⟨policy, hpolicy, hissued⟩

/-- What verification can fail for: no stamp, a depth out of bounds, or the hash of the stamp or a field
of its envelope. -/
inductive Refused (out : Compiled) (options : CompileOptions) : Error → Prop where
  | unstamped (h : out.stamp = none) : Refused out options (.validation .noStamp)
  | depth (h : ¬ (1 ≤ options.maxDepth.toNat ∧ options.maxDepth.toNat ≤ maxDepthLimit)) :
      Refused out options (.validation (.optionDepth options.maxDepth))
  | mismatch {subject : Subject} (expected actual : String)
      (h : subject.name = "abi.hash" ∨
        ∃ field ∈ ExpressionEnvelope.fieldNames, subject.name = "abi.envelope." ++ field) :
      Refused out options (.abiMismatch subject expected actual)

theorem refused_of_verify {out : Compiled} {options : CompileOptions} {e : Error}
    (h : out.verify options = .error e) : Refused out options e := by
  cases hstamp : out.stamp with
  | none =>
      rw [verify_none hstamp] at h
      cases h
      exact .unstamped hstamp
  | some stamp =>
      rw [verify_some hstamp] at h
      rcases bind_eq_error.mp h with hdepth | ⟨policy, -, hmismatch⟩
      · obtain ⟨hbounds, rfl⟩ := CompileOptions.normalize_eq_error.mp hdepth
        exact .depth hbounds
      · obtain ⟨_, expected, actual, rfl, rfl | ⟨field, hfield, rfl⟩⟩ := mismatch_of_checkStamp hmismatch
        · exact .mismatch expected actual (.inl rfl)
        · exact .mismatch expected actual (.inr ⟨field, hfield, rfl⟩)

/-- In place of a stamp that holds no other one does. -/
theorem verify_other_stamp {out : Compiled} {options : CompileOptions} (h : out.verify options = .ok ())
    {stamp : Stamp ExpressionEnvelope} (hother : out.stamp ≠ some stamp) :
    ∃ subject expected actual, verify { out with stamp := some stamp } options =
      .error (.abiMismatch subject expected actual) := by
  obtain ⟨policy, hpolicy, hissued⟩ := verify_eq_ok.mp h
  have hne : checkStamp out.tree policy stamp ≠ .ok () := by
    rw [Ne, checkStamp_eq_ok]
    rintro rfl
    exact hother hissued
  cases hcheck : checkStamp out.tree policy stamp with
  | ok => exact absurd hcheck hne
  | error e =>
      obtain ⟨subject, expected, actual, rfl, -⟩ := mismatch_of_checkStamp hcheck
      refine ⟨subject, expected, actual, ?_⟩
      calc verify { out with stamp := some stamp } options
          = options.normalize >>= fun policy => checkStamp out.tree policy stamp := verify_some rfl options
        _ = checkStamp out.tree policy stamp := by rw [hpolicy, ok_bind]
        _ = _ := hcheck

/-- Verification accepts exactly the stamp issued for the tree under options with a depth in bounds. So
it accepts what was compiled with a stamp under the same options, and no other stamp in its place; and
it can fail for nothing but a missing stamp, the depth, the hash, or a field of the envelope. -/
theorem verify_exact (out : Compiled) (options : CompileOptions) :
    (out.verify options = .ok () ↔
      (1 ≤ options.maxDepth.toNat ∧ options.maxDepth.toNat ≤ 4096) ∧
        out.stamp = some (Stamp.issue (ExpressionEnvelope.issue out.tree
          ⟨options.maxDepth, Utf16.sort options.fields, Utf16.sort options.params⟩))) ∧
      (∀ source, compile source options = .ok out → options.includeStamp = true →
        out.verify options = .ok ()) ∧
      (out.verify options = .ok () → ∀ stamp, out.stamp ≠ some stamp →
        ∃ subject expected actual, verify { out with stamp := some stamp } options =
          .error (.abiMismatch subject expected actual)) ∧
      ∀ e, out.verify options = .error e → Refused out options e := by
  refine ⟨?_, fun source => verify_of_compile, fun h stamp => verify_other_stamp h,
    fun e => refused_of_verify⟩
  rw [verify_eq_ok]
  constructor
  · rintro ⟨policy, hpolicy, hissued⟩
    obtain ⟨hbounds, rfl⟩ := CompileOptions.normalize_eq_ok.mp hpolicy
    exact ⟨hbounds, hissued⟩
  · rintro ⟨hbounds, hissued⟩
    exact ⟨_, CompileOptions.normalize_eq_ok.mpr ⟨hbounds, rfl⟩, hissued⟩

/-- A sum compiled and verified, and the same result with another version in its envelope. -/
theorem verify_exact_sum :
    ∃ out stamp, compile "_score + 1" {} = .ok out ∧ out.stamp = some stamp ∧ out.verify {} = .ok () ∧
      ∃ subject expected actual,
        verify { out with stamp := some ⟨{ stamp.envelope with abiVersion := 2 }, stamp.hash⟩ } {} =
          .error (.abiMismatch subject expected actual) := by
  have hcompiles : (compile "_score + 1" {}).toOption.isSome = true := by decide +kernel
  cases hout : compile "_score + 1" {} with
  | error e =>
      rw [hout] at hcompiles
      cases hcompiles
  | ok out =>
      obtain ⟨hiff, hverifies, hrejects, -⟩ := verify_exact out {}
      have hverified := hverifies _ hout rfl
      have hissued := (hiff.mp hverified).2
      refine ⟨out, _, rfl, hissued, hverified, hrejects hverified _ ?_⟩
      rw [hissued]
      intro heq
      have hversion : (1 : UInt32) = 2 :=
        congrArg (fun stamp => stamp.envelope.abiVersion) (Option.some.inj heq)
      exact absurd hversion (by decide)

/-! ### What verification does not see -/

/-- A result with the stamp of its tree, whatever the script. -/
def stamped (tree : Expr) (policy : ExpressionPolicy) (script : String) : Compiled :=
  ⟨script, tree, some (.issue (.issue tree policy))⟩

theorem verify_stamped {options : CompileOptions} {policy : ExpressionPolicy}
    (h : options.normalize = .ok policy) (tree : Expr) (script : String) :
    (stamped tree policy script).verify options = .ok () :=
  verify_eq_ok.mpr ⟨policy, h, rfl⟩

/-- Verified with the script of another tree, and with its own script for a tree that names a field it may
not name. -/
theorem verify_forged :
    (stamped (.number "1") ⟨32, [], []⟩ "return 2;").verify {} = .ok () ∧
      Expr.script (.number "1") ≠ .ok "return 2;".toList ∧
      (∃ script, Expr.script (.call "v" [.string "secret"]) = .ok script ∧
        (stamped (.call "v" [.string "secret"]) ⟨32, [], []⟩ (String.ofList script)).verify {} = .ok ()) ∧
      Expr.check ⟨32, [], []⟩ (.call "v" [.string "secret"]) ≠ .ok () := by
  have hdefault : ({} : CompileOptions).normalize = .ok ⟨32, [], []⟩ := rfl
  have hscript : Expr.script (.number "1") = .ok "return 1;".toList := rfl
  refine ⟨verify_stamped hdefault _ _, ?_, ⟨_, rfl, verify_stamped hdefault _ _⟩, ?_⟩
  · rw [hscript]
    intro h
    exact absurd (Except.ok.inj h) (by decide)
  · rintro ⟨⟩

/-- A verified result has the stamp that compiling gives its tree under the options, and would be verified
with any script. Compiling a source of the tree gives this result exactly if the tree keeps to the
restrictions and the script is that of the tree. -/
theorem compile_of_verified {out : Compiled} {options : CompileOptions}
    (h : out.verify options = .ok ()) :
    ∃ policy, options.normalize = .ok policy ∧
      out.stamp = some (Stamp.issue (ExpressionEnvelope.issue out.tree policy)) ∧
      (∀ script, verify { out with script := script } options = .ok ()) ∧
      ∀ source, Expr.ofSource source = .ok out.tree →
        (compile source { options with includeStamp := true } = .ok out ↔
          out.tree.check policy = .ok () ∧ out.tree.script = .ok out.script.toList) := by
  obtain ⟨policy, hpolicy, hissued⟩ := verify_eq_ok.mp h
  refine ⟨policy, hpolicy, hissued, fun script => verify_eq_ok.mpr ⟨policy, hpolicy, hissued⟩,
    fun source hsource => ?_⟩
  have hcompile : compile source { options with includeStamp := true } =
      Compiled.ofSource policy true source := by
    rw [compile]
    show options.normalize >>= _ = _
    rw [hpolicy, ok_bind]
  rw [hcompile, ofSource_eq_ok, if_pos rfl]
  constructor
  · rintro ⟨-, hcheck, hscript, -⟩
    exact ⟨hcheck, hscript⟩
  · rintro ⟨hcheck, hscript⟩
    exact ⟨hsource, hcheck, hscript, hissued⟩

/-- A number with its own script is what compiling gives. -/
theorem compile_of_verified_number :
    (stamped (.number "1") ⟨32, [], []⟩ "return 1;").verify {} = .ok () ∧
      compile "1" {} = .ok (stamped (.number "1") ⟨32, [], []⟩ "return 1;") := by
  have hdefault : ({} : CompileOptions).normalize = .ok ⟨32, [], []⟩ := rfl
  have htokens : (Token.tokenize "1").toOption = some [⟨.number "1", 0⟩] := by decide +kernel
  have hsource : Expr.ofSource "1" = .ok (.number "1") := by
    rw [Expr.ofSource]
    cases h : Token.tokenize "1" with
    | error e =>
        rw [h] at htokens
        cases htokens
    | ok tokens =>
        rw [h] at htokens
        cases htokens
        exact Expr.ofTokens_eq_ok.mpr (Expr.parseExpr_of_derives (.of_primary .number) (by decide))
  have hverified := verify_stamped hdefault (.number "1") "return 1;"
  obtain ⟨policy, hpolicy, -, -, hcompile⟩ := compile_of_verified hverified
  have hsame : policy = ⟨32, [], []⟩ := Except.ok.inj (hpolicy.symm.trans hdefault)
  refine ⟨hverified, (hcompile "1" hsource).mpr ⟨?_, rfl⟩⟩
  rw [hsame]
  rfl

end Compiled

end StampedPrograms
