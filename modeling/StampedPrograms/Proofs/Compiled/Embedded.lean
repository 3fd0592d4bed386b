import StampedPrograms.Compiled
import StampedPrograms.Proofs.Policy.Normal
import StampedPrograms.Proofs.Text.Utf16
import StampedPrograms.Proofs.Verify

/-!
An expression inside a program is compiled as it is on its own. The policy of the program is taken over without
a look at its depth or the order of its lists; the document it was brought from has passed the checks that the
options of a caller have to pass, and its lists have been sorted as theirs are.
-/

namespace StampedPrograms

namespace Policy

variable {doc : Json} {name : String}

/-- The strings that a policy document lists under a name, none where the entry is missing or null. -/
def Lists (doc : Json) (name : String) (names : List String) : Prop :=
  (doc.present? name).getD (.array []) = .ofStrings names

theorem Lists.unique {names names' : List String} (h : Lists doc name names) (h' : Lists doc name names') :
    names = names' := by
  have hitems : names.map Json.string = names'.map Json.string := Json.array.inj (h.symm.trans h')
  exact (List.map_inj_right fun _ _ => Json.string.inj).mp hitems

theorem lists_of_readList {out : List String} (h : readList doc name = .ok out) :
    ∃ names, Lists doc name names ∧ out = Utf16.sort names := by
  unfold readList at h
  unfold Lists
  split at h
  · next hmissing =>
      cases h
      exact ⟨[], by rw [hmissing]; rfl, rfl⟩
  · next items hitems =>
      obtain ⟨names, hnames, ⟨⟩⟩ := bind_eq_ok.mp h
      refine ⟨names, ?_, rfl⟩
      rw [hitems, Json.strings_eq_ok.mp hnames]
      rfl
  · cases h

/-- A depth that is read is in the bounds that the options of a caller are held to. -/
theorem bounds_of_readDepth {depth : UInt32} (h : readDepth doc = .ok depth) :
    1 ≤ depth.toNat ∧ depth.toNat ≤ maxDepthLimit := by
  unfold readDepth at h
  split at h
  · cases h
    decide
  · split at h
    · cases h
    · next x _ =>
        split at h
        · next hbounds =>
            obtain ⟨-, hpositive, hlimit⟩ := hbounds
            cases h
            unfold maxDepthLimit at hlimit ⊢
            have hwhole : x.truncate = x.whole := by
              rw [Binary64.truncate] at hpositive ⊢
              split at hpositive
              · omega
              · next hnegative => rw [if_neg hnegative]
            rw [UInt32.toNat_ofNat_of_lt' (by show x.whole < 2 ^ 32; omega)]
            omega
        · cases h

/-- The options that grant what the document does bring the restrictions that the policy puts on an expression. -/
theorem normalize_options {p : Policy} {options : CompileOptions} {fields params : List String}
    (hdepth : readDepth doc = .ok p.maxDepth) (hfields : p.fieldAllowlist = Utf16.sort fields)
    (hparams : p.paramAllowlist = Utf16.sort params) (hsame : options.maxDepth = p.maxDepth)
    (hpermFields : options.fields.Perm fields) (hpermParams : options.params.Perm params) :
    options.normalize = .ok (.ofPolicy p) := by
  refine CompileOptions.normalize_eq_ok.mpr ⟨?_, ?_⟩
  · rw [hsame]
    exact bounds_of_readDepth hdepth
  · rw [ExpressionPolicy.ofPolicy, hfields, hparams, hsame, Utf16.sort_eq_sort_iff.mpr hpermFields,
      Utf16.sort_eq_sort_iff.mpr hpermParams]

end Policy

/-- Under a policy that a document brings, a source is compiled as under the options that grant what the document
grants, in whatever order they list it: to the same result and stamp, or with the same error. -/
theorem compileUnderPolicy_eq_compile {doc : Json} {p : Policy} (h : Policy.normalize doc = .ok p) :
    ∃ fields params, Policy.Lists doc "field_allowlist" fields ∧ Policy.Lists doc "param_allowlist" params ∧
      ∀ (options : CompileOptions) (source : String), options.includeStamp = true →
        options.maxDepth = p.maxDepth → options.fields.Perm fields → options.params.Perm params →
          compileUnderPolicy source p = compile source options := by
  obtain ⟨-, -, hdepth, -, -, -, -, -, -, -, -, hfields, hparams⟩ := Policy.normalize_eq_ok.mp h
  obtain ⟨fields, hlistedFields, hsortedFields⟩ := Policy.lists_of_readList hfields
  obtain ⟨params, hlistedParams, hsortedParams⟩ := Policy.lists_of_readList hparams
  refine ⟨fields, params, hlistedFields, hlistedParams, ?_⟩
  intro options source hstamp hsame hpermFields hpermParams
  have hnormal := Policy.normalize_options hdepth hsortedFields hsortedParams hsame hpermFields hpermParams
  calc compileUnderPolicy source p = Compiled.ofSource (.ofPolicy p) options.includeStamp source := by
        rw [hstamp]
        rfl
    _ = compile source options := by
        rw [compile, hnormal]
        rfl

/-- A policy that grants two fields, listed in the order of code points. -/
def twoFieldPolicy : Json :=
  .ofPairs [("matrix_policy_version", .ofUInt32 1), ("field_allowlist", .ofStrings ["Ａ", "😀"])]

/-- A field is read inside a program with that policy, and under options that list the fields the other way. -/
theorem compileUnderPolicy_eq_compile_twoFields :
    ∃ p out, Policy.normalize twoFieldPolicy = .ok p ∧
      compile "@v('😀')" ⟨64, ["😀", "Ａ"], [], true⟩ = .ok out ∧ compileUnderPolicy "@v('😀')" p = .ok out := by
  have hsome : (Policy.normalize twoFieldPolicy).toOption.map Policy.maxDepth = some 64 := by decide +kernel
  obtain ⟨p, hp, hdepth⟩ := Option.map_eq_some_iff.mp hsome
  have hnormal := toOption_eq_some.mp hp
  have hcompiles : (compile "@v('😀')" ⟨64, ["😀", "Ａ"], [], true⟩).toOption.isSome = true := by decide +kernel
  obtain ⟨out, hout⟩ := Option.isSome_iff_exists.mp hcompiles
  obtain ⟨fields, params, hfields, hparams, hsame⟩ := compileUnderPolicy_eq_compile hnormal
  have hlisted : fields = ["Ａ", "😀"] := hfields.unique rfl
  have hnone : params = [] := hparams.unique rfl
  refine ⟨p, out, hnormal, toOption_eq_some.mp hout, ?_⟩
  rw [hsame ⟨64, ["😀", "Ａ"], [], true⟩ _ rfl hdepth.symm (hlisted ▸ .swap ..) (hnone ▸ .refl _)]
  exact toOption_eq_some.mp hout

end StampedPrograms
