import StampedPrograms.Compiled
import StampedPrograms.Proofs.Expr.Parser
import StampedPrograms.Proofs.Token.Spacing

/-!
White space in sources. Tokens that are written out with white space between them are cut off again, and white space
that is put between the tokens of a source makes no difference to what it is compiled to.
-/

namespace StampedPrograms

open Token (Piece WellCut joined IsBlanks)

variable {pieces pieces' : List Piece} {last last' : List Char}

/-- The tree of a row of tokens is the tree of the same tokens with other white space between them. -/
theorem Expr.ofSource_respaced {e : Expr} (hwell : WellCut pieces last)
    (hrespaced : List.Forall₂ Piece.Respaced pieces pieces') (hlast' : IsBlanks last')
    (h : Expr.ofSource (String.ofList (joined pieces last)) = .ok e) :
    Expr.ofSource (String.ofList (joined pieces' last')) = .ok e := by
  have htokens := Token.tokensFrom_joined hwell 0
  have htokens' := Token.tokensFrom_joined (hwell.respaced hrespaced hlast') 0
  rw [Expr.ofSource, Token.tokenize, String.toList_ofList, htokens, ok_bind] at h
  rw [Expr.ofSource, Token.tokenize, String.toList_ofList, htokens', ok_bind]
  refine Expr.ofTokens_of_kinds h ?_
  rw [Token.kinds_tokensAt, Token.kinds_tokensAt, Token.kinds_respaced hrespaced]

/-- A result depends on its source only through the tree. -/
theorem exists_tree_of_compile {source : String} {options : CompileOptions} {out : Compiled}
    (h : compile source options = .ok out) :
    ∃ tree, Expr.ofSource source = .ok tree ∧
      ∀ source', Expr.ofSource source' = .ok tree → compile source' options = .ok out := by
  cases htree : Expr.ofSource source with
  | error e =>
      rw [compile, bind_eq_ok] at h
      obtain ⟨policy, -, h⟩ := h
      rw [Compiled.ofSource, htree] at h
      cases h
  | ok tree =>
      refine ⟨tree, rfl, fun source' htree' => ?_⟩
      rw [← h, compile, compile]
      simp only [Compiled.ofSource, htree, htree']

/-- Tokens that are written out with white space between them, strings being quoted, are cut off as these tokens in
this order. A source that is compiled is a row of tokens, and is compiled to the same result, stamp included, whatever
white space is put between them. -/
theorem white_space_ignored :
    (∀ (pieces : List Piece) (last : List Char), (∀ piece ∈ pieces, piece.IsWritten) →
      (∀ piece ∈ pieces.tail, piece.blanks ≠ []) → IsBlanks last →
        ∃ tokens, Token.tokenize (String.ofList (joined pieces last)) = .ok tokens ∧
          tokens.map Token.kind = pieces.map Piece.kind) ∧
    ∀ (source : String) (options : CompileOptions) (out : Compiled), compile source options = .ok out →
      ∃ pieces last, source.toList = joined pieces last ∧ WellCut pieces last ∧
        ∀ pieces' last', List.Forall₂ Piece.Respaced pieces pieces' → IsBlanks last' →
          compile (String.ofList (joined pieces' last')) options = .ok out := by
  refine ⟨fun pieces last hpieces hgaps hlast => ?_, fun source options out h => ?_⟩
  · refine ⟨Token.tokensAt 0 pieces, ?_, Token.kinds_tokensAt 0 pieces⟩
    rw [Token.tokenize, String.toList_ofList]
    exact Token.tokensFrom_joined (Token.wellCut_written hpieces hgaps hlast) 0
  · obtain ⟨tree, htree, hcompile⟩ := exists_tree_of_compile h
    have hsource := htree
    rw [Expr.ofSource, bind_eq_ok] at hsource
    obtain ⟨tokens, htokens, -⟩ := hsource
    obtain ⟨pieces, last, hjoined, hwell, -⟩ := Token.exists_joined htokens
    refine ⟨pieces, last, hjoined, hwell, fun pieces' last' hrespaced hlast' => hcompile _ ?_⟩
    rw [← String.ofList_toList (s := source), hjoined] at htree
    exact Expr.ofSource_respaced hwell hrespaced hlast' htree

/-- A string that has to be quoted between two other tokens, and a source without white space. -/
theorem white_space_ignored_unspaced :
    let blank := "\u2003\n".toList
    let pieces : List Piece := [⟨[], .number ".5", ".5".toList⟩,
      ⟨blank, .string "it's \\", Quoted.script "it's \\"⟩, ⟨blank, .dot, ".".toList⟩]
    let options : CompileOptions := ⟨32, [], ["w"], true⟩
    (∀ piece ∈ pieces, piece.IsWritten) ∧ (∀ piece ∈ pieces.tail, piece.blanks ≠ []) ∧ IsBlanks blank ∧
      (∃ tokens, Token.tokenize (String.ofList (joined pieces blank)) = .ok tokens ∧
        tokens.map Token.kind = [.number ".5", .string "it's \\", .dot]) ∧
      ∃ out, compile "params.w<=.5?1:2" options = .ok out ∧
        ∃ pieces last, "params.w<=.5?1:2".toList = joined pieces last ∧ WellCut pieces last ∧
          ∀ pieces' last', List.Forall₂ Piece.Respaced pieces pieces' → IsBlanks last' →
            compile (String.ofList (joined pieces' last')) options = .ok out := by
  intro blank pieces options
  have hblank : IsBlanks blank := List.all_eq_true.mp (by decide)
  have hnil : IsBlanks [] := fun _ hc => absurd hc List.not_mem_nil
  have hnumber : Token.IsNumber ([] ++ '.' :: ['5']) :=
    .pointed (fun _ hc => absurd hc List.not_mem_nil) (List.all_eq_true.mp (by decide)) (by decide)
  have hpieces : ∀ piece ∈ pieces, piece.IsWritten := by
    simp only [pieces, List.mem_cons, List.not_mem_nil, or_false, forall_eq_or_imp, forall_eq]
    exact ⟨⟨hnil, hnumber, rfl⟩, ⟨hblank, trivial, rfl⟩, ⟨hblank, trivial, rfl⟩⟩
  have hgaps : ∀ piece ∈ pieces.tail, piece.blanks ≠ [] := by
    simp only [pieces, List.tail_cons, List.mem_cons, List.not_mem_nil, or_false, forall_eq_or_imp, forall_eq]
    decide
  obtain ⟨hwritten, hrespaced⟩ := white_space_ignored
  have hcompiles : (compile "params.w<=.5?1:2" options).toOption.isSome = true := by decide +kernel
  obtain ⟨out, hout⟩ := Option.isSome_iff_exists.mp hcompiles
  rw [toOption_eq_some] at hout
  exact ⟨hpieces, hgaps, hblank, hwritten pieces blank hpieces hgaps hblank, out, hout, hrespaced _ _ _ hout⟩

end StampedPrograms
