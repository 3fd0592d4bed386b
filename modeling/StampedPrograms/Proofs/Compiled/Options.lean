import StampedPrograms.Proofs.Expr.Compliance
import StampedPrograms.Proofs.Verify

/-!
The options of a caller decide whether a source is compiled, and leave no trace in what it is compiled to but the
hash of the restrictions in the stamp. Wider options accept whatever narrower ones accept.
-/

namespace StampedPrograms

/-! ### Wider restrictions -/

/-- Whatever the first restrictions allow, the second ones allow too. -/
structure ExpressionPolicy.Wider (policy policy' : ExpressionPolicy) : Prop where
  maxDepth : policy.maxDepth.toNat ≤ policy'.maxDepth.toNat
  fields : ∀ name ∈ policy.fields, name ∈ policy'.fields
  params : ∀ name ∈ policy.params, name ∈ policy'.params

namespace Expr

variable {policy policy' : ExpressionPolicy} {e : Expr}

theorem NodeCompliant.mono {n : Expr} (h : NodeCompliant policy n) (hwider : policy.Wider policy') :
    NodeCompliant policy' n := by
  cases n with
  | call name args =>
      refine ⟨h.1, fun hfield first rest hargs => ?_⟩
      obtain ⟨field, hliteral, hmem⟩ := h.2 hfield first rest hargs
      exact ⟨field, hliteral, hwider.fields field hmem⟩
  | param name => exact hwider.params name h
  | _ => trivial

theorem check_mono (h : check policy e = .ok ()) (hwider : policy.Wider policy') : check policy' e = .ok () := by
  rw [check, checkFrom_eq_ok] at h ⊢
  have hdepth := hwider.maxDepth
  exact ⟨by omega, fun n hn => (h.2 n hn).mono hwider⟩

end Expr

/-! ### Stamps -/

/-- The envelope with another hash of the restrictions. -/
def ExpressionEnvelope.withPolicyHash (envelope : ExpressionEnvelope) (hash : String) : ExpressionEnvelope :=
  { envelope with policyHash := hash }

namespace Compiled

/-- The same result without a stamp. -/
def unstamped (out : Compiled) : Compiled :=
  { out with stamp := none }

variable {policy policy' : ExpressionPolicy} {includeStamp includeStamp' : Bool} {source : String}
  {out out' : Compiled}

theorem ofSource_unstamped (policy : ExpressionPolicy) (includeStamp : Bool) (source : String) :
    ofSource policy false source = (ofSource policy includeStamp source).map unstamped := by
  unfold ofSource
  cases Expr.ofSource source with
  | error error => rfl
  | ok tree =>
      rw [ok_bind, ok_bind]
      cases tree.check policy with
      | error error => rfl
      | ok =>
          rw [ok_bind, ok_bind]
          cases tree.script with
          | error error => rfl
          | ok script => rfl

/-- A source is compiled to the same tree and script whatever the restrictions, if it is compiled at all. -/
theorem same_of_ofSource (h : ofSource policy includeStamp source = .ok out)
    (h' : ofSource policy' includeStamp' source = .ok out') :
    out.script = out'.script ∧ out.tree = out'.tree := by
  obtain ⟨htree, -, hscript, -⟩ := ofSource_eq_ok.mp h
  obtain ⟨htree', -, hscript', -⟩ := ofSource_eq_ok.mp h'
  have hsame : out.tree = out'.tree := Except.ok.inj (htree.symm.trans htree')
  rw [← hsame] at hscript'
  exact ⟨String.toList_inj.mp (Except.ok.inj (hscript.symm.trans hscript')), hsame⟩

theorem stamps_of_ofSource (h : ofSource policy true source = .ok out)
    (h' : ofSource policy' true source = .ok out') :
    ∃ stamp stamp', out.stamp = some stamp ∧ out'.stamp = some stamp' ∧
      stamp.envelope.withPolicyHash stamp'.envelope.policyHash = stamp'.envelope := by
  obtain ⟨-, htree⟩ := same_of_ofSource h h'
  obtain ⟨-, -, -, hstamp⟩ := ofSource_eq_ok.mp h
  obtain ⟨-, -, -, hstamp'⟩ := ofSource_eq_ok.mp h'
  rw [← htree] at hstamp'
  exact ⟨_, _, hstamp, hstamp', rfl⟩

theorem ofSource_mono (h : ofSource policy includeStamp source = .ok out) (hwider : policy.Wider policy')
    (includeStamp' : Bool) : ∃ out', ofSource policy' includeStamp' source = .ok out' := by
  obtain ⟨htree, hcheck, hscript, -⟩ := ofSource_eq_ok.mp h
  let stamp := Stamp.issue (ExpressionEnvelope.issue out.tree policy')
  refine ⟨⟨out.script, out.tree, if includeStamp' then some stamp else none⟩, ?_⟩
  exact ofSource_eq_ok.mpr ⟨htree, Expr.check_mono hcheck hwider, hscript, rfl⟩

end Compiled

theorem CompileOptions.wider_of_normalize {options options' : CompileOptions}
    {policy policy' : ExpressionPolicy}
    (h : options.normalize = .ok policy) (h' : options'.normalize = .ok policy')
    (hfields : ∀ name ∈ options.fields, name ∈ options'.fields)
    (hparams : ∀ name ∈ options.params, name ∈ options'.params)
    (hdepth : options.maxDepth ≤ options'.maxDepth) : policy.Wider policy' := by
  obtain ⟨-, rfl⟩ := normalize_eq_ok.mp h
  obtain ⟨-, rfl⟩ := normalize_eq_ok.mp h'
  exact {
    maxDepth := hdepth
    fields := fun name hname => Utf16.mem_sort.mpr (hfields name (Utf16.mem_sort.mp hname))
    params := fun name hname => Utf16.mem_sort.mpr (hparams name (Utf16.mem_sort.mp hname)) }

theorem compile_unstamped (source : String) (options : CompileOptions) :
    compile source { options with includeStamp := false } =
      (compile source options).map Compiled.unstamped := by
  have hsame : ({ options with includeStamp := false } : CompileOptions).normalize = options.normalize := rfl
  unfold compile
  rw [hsame]
  cases options.normalize with
  | error error => rfl
  | ok policy => exact Compiled.ofSource_unstamped policy options.includeStamp source

/-- Two callers that compile a source get the same script and tree, and stamps that differ in nothing but the hash
of the restrictions. Wider options compile whatever narrower ones do. Without a stamp the result is the same but
for the stamp. -/
theorem options_decide_acceptance (source : String) (options options' : CompileOptions) :
    (∀ out out', compile source options = .ok out → compile source options' = .ok out' →
      out.script = out'.script ∧ out.tree = out'.tree ∧
        (options.includeStamp = true → options'.includeStamp = true →
          ∃ stamp stamp', out.stamp = some stamp ∧ out'.stamp = some stamp' ∧
            stamp.envelope.withPolicyHash stamp'.envelope.policyHash = stamp'.envelope)) ∧
    (options'.maxDepth.toNat ≤ maxDepthLimit → (∀ name ∈ options.fields, name ∈ options'.fields) →
      (∀ name ∈ options.params, name ∈ options'.params) → options.maxDepth ≤ options'.maxDepth →
        ∀ out, compile source options = .ok out → ∃ out', compile source options' = .ok out') ∧
    compile source { options with includeStamp := false } = (compile source options).map Compiled.unstamped ∧
    ∀ out, compile source options = .ok out → out.stamp.isSome = options.includeStamp := by
  refine ⟨fun out out' h h' => ?_, fun hlimit hfields hparams hdepth out h => ?_,
    compile_unstamped source options, fun out h => ?_⟩
  · obtain ⟨policy, -, h⟩ := bind_eq_ok.mp h
    obtain ⟨policy', -, h'⟩ := bind_eq_ok.mp h'
    obtain ⟨hscript, htree⟩ := Compiled.same_of_ofSource h h'
    refine ⟨hscript, htree, fun hstamp hstamp' => ?_⟩
    rw [hstamp] at h
    rw [hstamp'] at h'
    exact Compiled.stamps_of_ofSource h h'
  · obtain ⟨policy, hpolicy, h⟩ := bind_eq_ok.mp h
    have hpositive : 1 ≤ options'.maxDepth.toNat :=
      Nat.le_trans (CompileOptions.normalize_eq_ok.mp hpolicy).1.1 hdepth
    have hpolicy' := CompileOptions.normalize_eq_ok.mpr ⟨⟨hpositive, hlimit⟩, rfl⟩
    have hwider := CompileOptions.wider_of_normalize hpolicy hpolicy' hfields hparams hdepth
    obtain ⟨out', h'⟩ := Compiled.ofSource_mono h hwider options'.includeStamp
    exact ⟨out', bind_eq_ok.mpr ⟨_, hpolicy', h'⟩⟩
  · obtain ⟨policy, -, h⟩ := bind_eq_ok.mp h
    obtain ⟨-, -, -, hstamp⟩ := Compiled.ofSource_eq_ok.mp h
    rw [hstamp]
    cases options.includeStamp <;> rfl

/-- A field read under options that name nothing else, and under wider ones in another order. -/
theorem options_decide_acceptance_wider :
    let options : CompileOptions := ⟨2, ["a"], [], true⟩
    let options' : CompileOptions := ⟨4096, ["b", "a"], ["k"], true⟩
    options'.maxDepth.toNat ≤ maxDepthLimit ∧ (∀ name ∈ options.fields, name ∈ options'.fields) ∧
      (∀ name ∈ options.params, name ∈ options'.params) ∧ options.maxDepth ≤ options'.maxDepth ∧
      ∃ out out', compile "@v('a')" options = .ok out ∧ compile "@v('a')" options' = .ok out' ∧
        out.script = out'.script ∧ out.tree = out'.tree ∧
        ∃ stamp stamp', out.stamp = some stamp ∧ out'.stamp = some stamp' ∧
          stamp.envelope.withPolicyHash stamp'.envelope.policyHash = stamp'.envelope := by
  intro options options'
  have hlimit : options'.maxDepth.toNat ≤ maxDepthLimit := by decide
  have hfields : ∀ name ∈ options.fields, name ∈ options'.fields := by decide
  have hparams : ∀ name ∈ options.params, name ∈ options'.params := by decide
  have hdepth : options.maxDepth ≤ options'.maxDepth := by decide
  have hcompiles : (compile "@v('a')" options).toOption.isSome = true := by decide +kernel
  obtain ⟨out, hout⟩ := Option.isSome_iff_exists.mp hcompiles
  rw [toOption_eq_some] at hout
  obtain ⟨hsame, hmono, -, -⟩ := options_decide_acceptance "@v('a')" options options'
  obtain ⟨out', hout'⟩ := hmono hlimit hfields hparams hdepth out hout
  obtain ⟨hscript, htree, hstamps⟩ := hsame out out' hout hout'
  exact ⟨hlimit, hfields, hparams, hdepth, out, out', hout, hout', hscript, htree, hstamps rfl rfl⟩

end StampedPrograms
