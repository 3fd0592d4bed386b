import StampedPrograms.Proofs.Token.Pieces

/-!
What a syntax error shows of the source. The cutting of a source into tokens fails on characters that it shows as they
stand there. A token that is cut off is shown as it stands in the source too, with one exception: a string literal is
shown as the text it stands for between single quotes. That is how it was written only if it stands in single quotes
and has no escapes.
-/

namespace StampedPrograms

/-- The fault is that the source has no token from one byte to another. -/
def SyntaxFault.BreaksAt (start stop : Nat) : SyntaxFault → Prop
  | .unexpectedCharacter offset | .unterminatedString offset | .missingCallName offset => offset = start
  | .invalidEscape offset => offset = stop
  | _ => False

/-- The fault is that the token that is shown like this and starts at this byte of the source may not stand there. -/
def SyntaxFault.PointsAt (token : String) (start : Nat) : SyntaxFault → Prop
  | .unexpectedToken shown offset | .unexpectedName shown offset | .expected _ shown offset
  | .expectedParameter shown offset | .trailing shown offset => shown = token ∧ offset = start
  | .nesting _ => True
  | _ => False

namespace Token

/-! ### Tokens as they are shown -/

section Literals

variable {quote : Char} {body text : List Char}

theorem Decodes.eq_of_plain (h : Decodes quote body text) (hplain : '\\' ∉ body) : text = body := by
  induction h with
  | nil => rfl
  | plain _ _ _ ih => rw [ih fun hmem => hplain (List.mem_cons_of_mem _ hmem)]
  | escape => exact absurd (List.mem_cons_self ..) hplain

theorem Decodes.length_le (h : Decodes quote body text) : text.length ≤ body.length := by
  induction h with
  | nil => exact Nat.le_refl 0
  | plain _ _ _ ih => exact Nat.succ_le_succ ih
  | escape _ _ ih => exact Nat.succ_le_succ (Nat.le_succ_of_le ih)

/-- Every escape is longer than what it stands for. -/
theorem Decodes.length_lt (h : Decodes quote body text) (hescape : '\\' ∈ body) : text.length < body.length := by
  induction h with
  | nil => cases hescape
  | plain _ unescaped _ ih =>
      rcases List.mem_cons.mp hescape with heq | hescape
      · exact absurd heq.symm unescaped
      · exact Nat.succ_lt_succ (ih hescape)
  | escape _ rest => exact Nat.succ_lt_succ (Nat.lt_succ_of_le rest.length_le)

end Literals

/-- The text is a string literal in double quotes or with an escape, and the token is what it stands for between single
quotes. -/
def Reprinted (lexeme : List Char) (token : String) : Prop :=
  ∃ quote body text, lexeme = quote :: (body ++ [quote]) ∧ (quote = '\'' ∨ quote = '"') ∧
    Decodes quote body text.toList ∧ (quote = '"' ∨ '\\' ∈ body) ∧ token = "'" ++ text ++ "'"

theorem shown_string (text : String) : (Kind.string text).shown.toList = '\'' :: (text.toList ++ ['\'']) := by
  simp [Kind.shown, String.toList_append]

theorem Reprinted.ne {lexeme : List Char} {token : String} (h : Reprinted lexeme token) : token.toList ≠ lexeme := by
  obtain ⟨quote, body, text, rfl, hquote, hdecodes, hdiffers, rfl⟩ := h
  intro hsame
  have hshown := shown_string text
  rw [Kind.shown, hsame] at hshown
  obtain ⟨rfl, hbody⟩ := List.cons.inj hshown
  have hescape : '\\' ∈ body := hdiffers.resolve_left (by decide)
  rw [List.append_cancel_right hbody] at hdecodes hescape
  exact Nat.lt_irrefl _ (hdecodes.length_lt hescape)

theorem shown_of_spells {kind : Kind} {lexeme : List Char} (h : Spells kind lexeme) :
    kind.shown.toList = lexeme ∨ Reprinted lexeme kind.shown := by
  cases h with
  | leftParen | rightParen | comma | question | colon | dot => exact .inl rfl
  | op | ident | number => exact .inl rfl
  | call => exact .inl String.toList_append
  | @literal quote body text quoted decodes =>
      by_cases hdiffers : quote = '"' ∨ '\\' ∈ body
      · exact .inr ⟨quote, body, text, rfl, quoted, decodes, hdiffers, rfl⟩
      · obtain ⟨hdouble, hplain⟩ := not_or.mp hdiffers
        left
        rw [shown_string, decodes.eq_of_plain hplain, quoted.resolve_right hdouble]

theorem WellCut.spelled {pieces : List Piece} {last : List Char} (h : WellCut pieces last) :
    ∀ piece ∈ pieces, Spells piece.kind piece.lexeme := by
  induction h with
  | nil => simp
  | cons _ spelled _ _ ih => exact List.forall_mem_cons.mpr ⟨spelled, ih⟩

/-! ### Characters that are no token -/

/-- The token stands in the text, which begins at this offset of its source, where the fault is. -/
def Offends (offset : Nat) (cs : List Char) (fault : SyntaxFault) (token : String) : Prop :=
  ∃ front back, cs = front ++ (token.toList ++ back) ∧
    fault.BreaksAt (offset + byteLength front) (offset + byteLength front + byteLength token.toList)

theorem Offends.prepend {offset : Nat} {cs : List Char} {fault : SyntaxFault} {token : String} (before : List Char)
    (h : Offends (offset + byteLength before) cs fault token) : Offends offset (before ++ cs) fault token := by
  obtain ⟨front, back, rfl, hbreaks⟩ := h
  refine ⟨before ++ front, back, (List.append_assoc ..).symm, ?_⟩
  rwa [byteLength_append, ← Nat.add_assoc]

section Cut

variable {offset : Nat} {quote c : Char} {cs rest lexeme : List Char} {fault : SyntaxFault} {token : String}

theorem exists_escape {escaped : Char} (h : literalBody quote cs = .badEscape lexeme (some escaped)) :
    ∃ before after, lexeme = before ++ ['\\', escaped] ∧ cs = before ++ (['\\', escaped] ++ after) := by
  induction cs using literalBody.induct quote generalizing lexeme with
  | case1 => cases h
  | case2 => simp [literalBody] at h
  | case3 c tail d hd ih =>
      simp only [literalBody, hd] at h
      cases hbody : literalBody quote tail <;> simp [hbody, LiteralBody.prepend] at h
      obtain ⟨rfl, rfl⟩ := h
      obtain ⟨before, after, rfl, rfl⟩ := ih hbody
      exact ⟨'\\' :: c :: before, after, rfl, rfl⟩
  | case4 c tail hd =>
      simp only [literalBody, hd] at h
      cases h
      exact ⟨[], tail, rfl, rfl⟩
  | case5 => simp [literalBody] at h
  | case6 c tail h1 h2 hquote ih =>
      simp only [literalBody, hquote, if_false] at h
      cases hbody : literalBody quote tail <;> simp [hbody, LiteralBody.prepend] at h
      obtain ⟨rfl, rfl⟩ := h
      obtain ⟨before, after, rfl, rfl⟩ := ih hbody
      exact ⟨c :: before, after, rfl, rfl⟩

theorem offends_of_cutString (h : cutString offset quote cs = .error (.badSyntax fault (some token))) :
    Offends offset (quote :: cs) fault token := by
  unfold cutString at h
  split at h
  · cases h
  · cases h
    exact ⟨[], [], by simp, rfl⟩
  · next lexeme escaped hbody =>
      cases escaped with
      | none => cases h
      | some escaped =>
          cases h
          obtain ⟨before, after, rfl, rfl⟩ := exists_escape hbody
          refine ⟨quote :: before, after, by simp, ?_⟩
          rw [SyntaxFault.BreaksAt, ← List.cons_append, byteLength_append, Nat.add_assoc, String.toList_ofList]

theorem offends_of_cutCall (h : cutCall offset cs = .error (.badSyntax fault (some token))) :
    Offends offset ('@' :: cs) fault token := by
  unfold cutCall at h
  split at h
  · cases h
  · cases h
    exact ⟨[], cs, rfl, rfl⟩

theorem offends_of_cutOperator (h : cutOperator offset c rest = .error (.badSyntax fault (some token))) :
    Offends offset (c :: rest) fault token := by
  unfold cutOperator at h
  dsimp only at h
  split at h
  · cases h
  split at h
  · cases h
  split at h
  · cases h
  · cases h
    exact ⟨[], rest, by simp, rfl⟩

theorem offends_of_cut (h : cut offset c rest = .error (.badSyntax fault (some token))) :
    Offends offset (c :: rest) fault token := by
  unfold cut at h
  split at h
  · cases h
  split at h
  · cases h
  split at h
  · cases h
  split at h
  · cases h
  split at h
  · exact offends_of_cutString h
  split at h
  · next hsign => exact hsign ▸ offends_of_cutCall h
  split at h
  · split at h <;> cases h
  split at h
  · cases h
  split at h
  · cases h
  · exact offends_of_cutOperator h

/-- A source that is not cut into tokens has what the error shows of it. -/
theorem offends_of_tokensFrom (h : tokensFrom offset cs = .error (.badSyntax fault (some token))) :
    Offends offset cs fault token := by
  fun_induction tokensFrom offset cs with
  | case1 => cases h
  | case2 offset cs c rest htext start error hcut =>
      cases h
      rw [← List.takeWhile_append_dropWhile (p := isBlank) (l := cs), htext]
      exact (offends_of_cut hcut).prepend _
  | case3 offset cs c rest htext start t htaken =>
      rename_i ih
      rcases bind_eq_error.mp h with hlater | ⟨others, -, h⟩
      · have hrest := (ih hlater).prepend t.lexeme
        rw [(cut_takes htaken).1] at hrest
        rw [← List.takeWhile_append_dropWhile (p := isBlank) (l := cs), htext]
        exact hrest.prepend _
      · cases h

end Cut

end Token

end StampedPrograms
