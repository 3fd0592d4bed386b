import StampedPrograms.Compiled
import StampedPrograms.Proofs.Expr.Lowering
import StampedPrograms.Proofs.Text.Utf16

/-!
What compiling a source may put into a script, whatever the source.
-/

namespace StampedPrograms

theorem Script.Harmless.mono {fields fields' params params' : List String} {rest : List Script.Atom}
    (h : Script.Harmless fields params rest) (hfields : ∀ name ∈ fields, name ∈ fields')
    (hparams : ∀ name ∈ params, name ∈ params') : Script.Harmless fields' params' rest where
  char := h.char
  lineComment := h.lineComment
  blockComment := h.blockComment
  field call hcall tail htail := by
    obtain ⟨name, hname, hliteral⟩ := h.field call hcall tail htail
    exact ⟨name, hfields name hname, hliteral⟩
  param tail htail := by
    obtain ⟨name, hname, hspelled⟩ := h.param tail htail
    exact ⟨name, hparams name hname, hspelled⟩

/-- A compiled result has the tree of its source, which keeps to the restrictions, the script of this
tree, and the stamp of the tree if one is wanted. -/
theorem Compiled.ofSource_eq_ok {policy : ExpressionPolicy} {includeStamp : Bool} {source : String}
    {out : Compiled} :
    Compiled.ofSource policy includeStamp source = .ok out ↔
      Expr.ofSource source = .ok out.tree ∧ out.tree.check policy = .ok () ∧
        out.tree.script = .ok out.script.toList ∧
        out.stamp =
          if includeStamp then some (Stamp.issue (ExpressionEnvelope.issue out.tree policy)) else none := by
  constructor
  · intro h
    simp only [Compiled.ofSource, bind_eq_ok] at h
    obtain ⟨tree, htree, ⟨⟩, hcheck, script, hscript, h⟩ := h
    cases h
    exact ⟨htree, hcheck, by rw [hscript, String.toList_ofList], rfl⟩
  · rintro ⟨htree, hcheck, hscript, hstamp⟩
    obtain ⟨script, tree, stamp⟩ := out
    dsimp only at htree hcheck hscript hstamp
    subst hstamp
    simp only [Compiled.ofSource, bind_eq_ok]
    exact ⟨tree, htree, (), hcheck, script.toList, hscript, by rw [String.ofList_toList]; rfl⟩

theorem Compiled.exists_body {policy : ExpressionPolicy} {includeStamp : Bool} {source : String}
    {out : Compiled} (h : Compiled.ofSource policy includeStamp source = .ok out) :
    ∃ body, out.script.toList = "return ".toList ++ body ++ [';'] ∧
      Expr.Part policy.fields policy.params body := by
  obtain ⟨htree, hcheck, hscript, -⟩ := ofSource_eq_ok.mp h
  simp only [Expr.script, bind_eq_ok] at hscript
  obtain ⟨body, hbody, hscript⟩ := hscript
  split at hscript
  · cases hscript
  · have hnodes := (Expr.spelled_of_ofSource htree).and (Expr.everywhere_of_checkFrom hcheck)
    exact ⟨body, (Except.ok.inj hscript).symm, Expr.part_of_lower hnodes hbody⟩

/-- The body of a compiled script is read with its literals closed and its brackets matched, and is
harmless throughout: it names no field and no parameter but those of the options. -/
theorem compile_harmless {source : String} {options : CompileOptions} {out : Compiled}
    (h : compile source options = .ok out) :
    ∃ body atoms, out.script.toList = "return ".toList ++ body ++ [';'] ∧
      Script.read body = some atoms ∧ Script.awaited [] atoms = some [] ∧
      Script.HarmlessThroughout options.fields options.params atoms := by
  rw [compile, bind_eq_ok] at h
  obtain ⟨policy, hpolicy, h⟩ := h
  obtain ⟨body, hscript, hpart⟩ := Compiled.exists_body h
  obtain ⟨atoms, hreading⟩ := Script.exists_reading hpart
  refine ⟨body, atoms, hscript, ?_, ?_, ?_⟩
  · have hread := hreading.reads []
    rwa [List.append_nil, Script.readFrom, Option.map_some, List.append_nil] at hread
  · have hawaited := hreading.awaits [] []
    rwa [List.append_nil, List.append_nil, Script.awaited] at hawaited
  · have hharmless := hreading.harmless [] (by rintro _ ⟨⟩) Script.harmlessThroughout_nil
    rw [List.append_nil] at hharmless
    rw [CompileOptions.normalize] at hpolicy
    split at hpolicy
    · cases hpolicy
      intro rest hrest
      exact (hharmless rest hrest).mono (fun _ => Utf16.mem_sort.mp) fun _ => Utf16.mem_sort.mp
    · cases hpolicy

/-- A field whose name has a quote, and a parameter. -/
theorem compile_harmless_quote :
    ∃ out body atoms, compile "@v('it\\'s', params.k) / 2" ⟨32, ["it's"], ["k"], false⟩ = .ok out ∧
      out.script = "return ((doc.containsKey('it\\'s') && !doc['it\\'s'].empty ? " ++
        "doc['it\\'s'].value : params.k) / 2);" ∧
      out.script.toList = "return ".toList ++ body ++ [';'] ∧
      Script.read body = some atoms ∧ Script.awaited [] atoms = some [] ∧
      Script.HarmlessThroughout ["it's"] ["k"] atoms := by
  have hscript : ((compile "@v('it\\'s', params.k) / 2" ⟨32, ["it's"], ["k"], false⟩).toOption.map
      Compiled.script) = some ("return ((doc.containsKey('it\\'s') && !doc['it\\'s'].empty ? " ++
        "doc['it\\'s'].value : params.k) / 2);") := by
    decide +kernel
  cases h : compile "@v('it\\'s', params.k) / 2" ⟨32, ["it's"], ["k"], false⟩ with
  | error e =>
      rw [h] at hscript
      cases hscript
  | ok out =>
      rw [h] at hscript
      obtain ⟨body, atoms, hharmless⟩ := compile_harmless h
      exact ⟨out, body, atoms, rfl, Option.some.inj hscript, hharmless⟩

end StampedPrograms
