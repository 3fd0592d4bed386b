import StampedPrograms.Proofs.Expr.Returns

/-!
The offending token of a syntax error. Wherever the parser fails, it shows one of the tokens that it was given, and
the cutting into tokens shows characters of the source. So the token of an error is read off the source where the
error points, as it is written there, unless it is a string literal that is written in another way than it is shown.
-/

namespace StampedPrograms.Expr

open Token (Reprinted)

variable {tokens : List Token} {m : Machine} {error : Error}

theorem blames_of_steps (h : Steps tokens .start m) (hfailed : m.control = .failed error) : Blames tokens error := by
  cases h with
  | refl => cases hfailed
  | tail _ hstep => exact (onward_step hstep).blames error hfailed

theorem blames_of_ofTokens (h : ofTokens tokens = .error error) : Blames tokens error := by
  have hends := @ends_call tokens _ _ (Nat.zero_add maxNesting) .expression [] 0
  rw [Routine.result, List.drop_zero] at hends
  rcases bind_eq_error.mp h with hparsed | ⟨⟨e, rest⟩, hparsed, h⟩
  · rw [hparsed] at hends
    obtain ⟨m, hfailed, hduring⟩ := hends
    exact blames_of_steps hduring.steps hfailed
  · rw [hparsed] at hends
    obtain ⟨position, -, -, hrest, -⟩ := hends
    cases rest with
    | nil => cases h
    | cons token after =>
        cases h
        have htoken : token ∈ tokens.drop position := hrest ▸ List.mem_cons_self ..
        exact ⟨token, List.mem_of_mem_drop htoken, rfl, rfl, rfl⟩

/-- The token of a syntax error is a part of the source, from where or up to where the error says. Where the source is
not cut into tokens, it is this part as it is written. Where a token may not stand, it is too, unless this part is a
string literal in double quotes or with an escape: then the token is what the literal stands for between single quotes,
which is not how it is written. -/
theorem offending_token (source : String) (fault : SyntaxFault) (token : String)
    (h : ofSource source = .error (.badSyntax fault (some token))) :
    ∃ front lexeme back, source.toList = front ++ (lexeme ++ back) ∧
      (fault.BreaksAt (byteLength front) (byteLength front + byteLength lexeme) ∧ token.toList = lexeme ∨
        fault.PointsAt token (byteLength front) ∧
          (token.toList = lexeme ∨ Reprinted lexeme token ∧ token.toList ≠ lexeme)) := by
  rcases bind_eq_error.mp h with hcut | ⟨tokens, hcut, hparsed⟩
  · obtain ⟨front, back, hsource, hbreaks⟩ := Token.offends_of_tokensFrom hcut
    rw [Nat.zero_add] at hbreaks
    exact ⟨front, token.toList, back, hsource, .inl ⟨hbreaks, rfl⟩⟩
  · obtain ⟨pieces, last, hsource, hwell, rfl⟩ := Token.exists_joined hcut
    obtain ⟨blamed, hblamed, hshown, hpoints⟩ := blames_of_ofTokens hparsed
    obtain ⟨piece, hpiece, front, back, hkind, hjoined, hoffset⟩ := Token.exists_piece last hblamed
    rw [Nat.zero_add] at hoffset
    refine ⟨front, piece.lexeme, back, hsource.trans hjoined, .inr ⟨hoffset ▸ hpoints, ?_⟩⟩
    rw [← hshown, Token.shown, hkind]
    have hspelled := Token.shown_of_spells (hwell.spelled piece hpiece)
    exact hspelled.imp_right fun hreprinted => ⟨hreprinted, hreprinted.ne⟩

/-- A string in double quotes behind an expression is not shown as it is written, and what is shown is nowhere in the
source. -/
theorem offending_token_string :
    let source := "1 \"a\""
    ofSource source = .error (.badSyntax (.trailing "'a'" 2) (some "'a'")) ∧
      (∃ front lexeme back, source.toList = front ++ (lexeme ++ back) ∧
        ((SyntaxFault.trailing "'a'" 2).BreaksAt (byteLength front) (byteLength front + byteLength lexeme) ∧
            "'a'".toList = lexeme ∨
          (SyntaxFault.trailing "'a'" 2).PointsAt "'a'" (byteLength front) ∧
            ("'a'".toList = lexeme ∨ Reprinted lexeme "'a'" ∧ "'a'".toList ≠ lexeme))) ∧
      ¬ "'a'".toList <:+: source.toList := by
  intro source
  have hchars : source.toList = ['1', ' ', '"', 'a', '"'] := by decide +kernel
  have htokens : (Token.tokenize source).toOption = some [⟨.number "1", 0⟩, ⟨.string "a", 2⟩] := by
    rw [Token.tokenize, hchars]
    decide +kernel
  have hparsed : parseExpr maxNesting ([⟨.number "1", 0⟩] ++ [⟨.string "a", 2⟩]) =
      .ok (.number "1", [⟨.string "a", 2⟩]) :=
    reads_of_derives (.of_primary .number) maxNesting (by decide) [⟨.string "a", 2⟩] (stops_cons (by simp) _ _) rfl
  have hsource : ofSource source = .error (.badSyntax (.trailing "'a'" 2) (some "'a'")) := by
    rw [ofSource, toOption_eq_some.mp htokens, ok_bind, ofTokens]
    rw [List.singleton_append] at hparsed
    rw [hparsed]
    rfl
  refine ⟨hsource, offending_token source _ _ hsource, ?_⟩
  intro hshown
  have hquote : '\'' ∈ source.toList := hshown.subset (by decide)
  rw [hchars] at hquote
  revert hquote
  decide

end StampedPrograms.Expr
