import StampedPrograms.Proofs.Token.Spelling

/-!
A source as the row of its tokens. A source that is cut into tokens is a row of pieces, each of them a token behind
white space, with white space at the end. Every token is spelled in one of its ways and goes as far as the source can
be read as a token at all. There is only one such row, and every source that is one is cut into its tokens.
-/

namespace StampedPrograms.Token

/-- The spellings of a token. A string may stand in quotes of either kind and with escapes where it needs none. -/
inductive Spells : Kind → List Char → Prop where
  | leftParen : Spells .leftParen ['(']
  | rightParen : Spells .rightParen [')']
  | comma : Spells .comma [',']
  | question : Spells .question ['?']
  | colon : Spells .colon [':']
  | dot : Spells .dot ['.']
  | op {symbol : String} (known : symbol ∈ pairOps ++ singleOps) : Spells (.op symbol) symbol.toList
  | ident {name : String} (isName : IsName name.toList) : Spells (.ident name) name.toList
  | call {name : String} (isName : IsName name.toList) : Spells (.call name) ('@' :: name.toList)
  | number {text : String} (isNumber : IsNumber text.toList) : Spells (.number text) text.toList
  | literal {quote : Char} {body : List Char} {text : String} (quoted : quote = '\'' ∨ quote = '"')
      (decodes : Decodes quote body text.toList) : Spells (.string text) (quote :: (body ++ [quote]))

/-- No token of any kind is spelled with more of the text. -/
def Maximal (lexeme rest : List Char) : Prop :=
  ∀ more, more ≠ [] → more <+: rest → ∀ kind, ¬ Spells kind (lexeme ++ more)

def IsBlanks (cs : List Char) : Prop :=
  ∀ c ∈ cs, isBlank c = true

/-- A token as it stands in a source, and the white space in front of it. -/
structure Piece where
  blanks : List Char
  kind : Kind
  lexeme : List Char

/-- The source that consists of these pieces and the white space at its end. -/
def joined : List Piece → List Char → List Char
  | [], last => last
  | piece :: pieces, last => piece.blanks ++ (piece.lexeme ++ joined pieces last)

/-- The tokens of the pieces of a source from the given offset on. -/
def tokensAt : Nat → List Piece → List Token
  | _, [] => []
  | offset, piece :: pieces =>
      ⟨piece.kind, offset + byteLength piece.blanks⟩ ::
        tokensAt (offset + byteLength piece.blanks + byteLength piece.lexeme) pieces

/-- Between the tokens stands white space, and each of them is spelled as such and goes as far as it can. -/
inductive WellCut : List Piece → List Char → Prop where
  | nil {last : List Char} (blank : IsBlanks last) : WellCut [] last
  | cons {piece : Piece} {pieces : List Piece} {last : List Char} (blank : IsBlanks piece.blanks)
      (spelled : Spells piece.kind piece.lexeme) (maximal : Maximal piece.lexeme (joined pieces last))
      (rest : WellCut pieces last) : WellCut (piece :: pieces) last

/-! ### A spelled token is cut off -/

section Spelled

variable {kind : Kind} {lexeme rest : List Char}

theorem Maximal.not_next {c : Char} (h : Maximal lexeme (c :: rest)) (kind : Kind) :
    ¬ Spells kind (lexeme ++ [c]) :=
  h [c] (by simp) ⟨rest, rfl⟩ kind

theorem IsName.snoc {cs : List Char} (h : IsName cs) {c : Char} (hc : Token.isNamePart c = true) :
    IsName (cs ++ [c]) := by
  obtain ⟨d, ds, rfl, hstart, hparts⟩ := h
  refine ⟨d, ds ++ [c], rfl, hstart, fun e he => ?_⟩
  rcases List.mem_append.mp he with he | he
  · exact hparts e he
  · rw [List.mem_singleton.mp he]
    exact hc

theorem isDigit_of_mem_snoc {cs : List Char} (h : ∀ c ∈ cs, c.isDigit = true) {d : Char} (hd : d.isDigit = true) :
    ∀ c ∈ cs ++ [d], c.isDigit = true := by
  intro c hc
  rcases List.mem_append.mp hc with hc | hc
  · exact h c hc
  · rw [List.mem_singleton.mp hc]
    exact hd

theorem IsNumber.snoc {cs : List Char} (h : IsNumber cs) {d : Char} (hd : d.isDigit = true) :
    IsNumber (cs ++ [d]) := by
  cases h with
  | whole all => exact .whole (isDigit_of_mem_snoc all hd) (by simp)
  | pointed all all_fraction =>
      rw [List.append_assoc, List.cons_append]
      exact .pointed all (isDigit_of_mem_snoc all_fraction hd) (by simp)

/-- Digits with a point and a digit behind them are a number too. -/
theorem IsNumber.point {cs : List Char} (h : IsNumber cs) (hpoint : '.' ∉ cs) {d : Char} (hd : d.isDigit = true) :
    IsNumber (cs ++ ['.', d]) := by
  cases h with
  | whole all => exact .pointed all (by simpa using hd) (by simp)
  | pointed => exact absurd (List.mem_append_right _ (List.mem_cons_self ..)) hpoint

theorem spells_ident {cs : List Char} (h : IsName cs) : Spells (.ident (String.ofList cs)) cs := by
  rw [← String.toList_ofList (l := cs)] at h
  simpa using Spells.ident h

theorem spells_call {cs : List Char} (h : IsName cs) : Spells (.call (String.ofList cs)) ('@' :: cs) := by
  rw [← String.toList_ofList (l := cs)] at h
  simpa using Spells.call h

theorem spells_number {cs : List Char} (h : IsNumber cs) : Spells (.number (String.ofList cs)) cs := by
  rw [← String.toList_ofList (l := cs)] at h
  simpa using Spells.number h

/-- A token of one spelling that goes as far as it can is not followed by what would go on with it. -/
theorem Maximal.ends {kind : Kind} (hmaximal : Maximal kind.spelling rest) (hkind : kind.Writable)
    (hnumber : ∀ text, kind ≠ .number text) : kind.Ends rest := by
  intro c hc
  obtain ⟨more, rfl⟩ : ∃ more, rest = c :: more := List.head?_eq_some_iff.mp hc
  rw [← Bool.not_eq_true]
  intro hcontinues
  cases kind with
  | op symbol =>
      have hpair : String.ofList (symbol.toList ++ [c]) ∈ pairOps := by simpa [Kind.continues] using hcontinues
      have hspells := Spells.op (List.mem_append_left singleOps hpair)
      rw [String.toList_ofList] at hspells
      exact hmaximal.not_next _ hspells
  | question =>
      have hpair : c = '?' := beq_iff_eq.mp hcontinues
      subst hpair
      exact hmaximal.not_next (.op "??") (.op (by decide))
  | dot =>
      have hdigit : c.isDigit = true := hcontinues
      have hnumber : IsNumber ([] ++ ['.', c]) := .pointed (by simp) (by simpa using hdigit) (by simp)
      exact hmaximal.not_next _ (spells_number hnumber)
  | ident name => exact hmaximal.not_next _ (spells_ident (IsName.snoc hkind hcontinues))
  | call name =>
      have hspelling : (Kind.call name).spelling = '@' :: name.toList := String.toList_append
      rw [hspelling] at hmaximal
      exact hmaximal.not_next _ (spells_call (IsName.snoc hkind hcontinues))
  | number text => exact hnumber text rfl
  | _ => cases hcontinues

/-- A token that is spelled in a text and goes as far as it can is cut off the text. -/
theorem cut_spelled (hspells : Spells kind lexeme) (hmaximal : Maximal lexeme rest) (offset : Nat) :
    ∃ c cs, lexeme = c :: cs ∧ isBlank c = false ∧ cut offset c (cs ++ rest) = .ok ⟨kind, lexeme, rest⟩ := by
  have hone (kind : Kind) (hmaximal : Maximal kind.spelling rest) (hkind : kind.Writable)
      (hnumber : ∀ text, kind ≠ .number text) :=
    cut_spelling hkind (hmaximal.ends hkind hnumber) offset
  cases hspells with
  | leftParen => exact hone .leftParen hmaximal trivial (by simp)
  | rightParen => exact hone .rightParen hmaximal trivial (by simp)
  | comma => exact hone .comma hmaximal trivial (by simp)
  | question => exact hone .question hmaximal trivial (by simp)
  | colon => exact hone .colon hmaximal trivial (by simp)
  | dot => exact hone .dot hmaximal trivial (by simp)
  | op known => exact hone (.op _) hmaximal known (by simp)
  | ident isName => exact hone (.ident _) hmaximal isName (by simp)
  | @call name isName =>
      have hspelling : (Kind.call name).spelling = '@' :: name.toList := String.toList_append
      rw [← hspelling] at hmaximal ⊢
      exact hone _ hmaximal isName (by simp)
  | @number text isNumber =>
      obtain ⟨c, cs, htext, hblank, hcut⟩ := cut_number isNumber offset rest
      refine ⟨c, cs, htext, hblank, hcut.trans ?_⟩
      rw [cutNumber_run isNumber, String.ofList_toList]
      · intro d hd
        obtain ⟨more, rfl⟩ : ∃ more, rest = d :: more := List.head?_eq_some_iff.mp hd
        rw [← Bool.not_eq_true]
        exact fun hdigit => hmaximal.not_next _ (spells_number (isNumber.snoc hdigit))
      · rintro hpoint d more rfl
        rw [← Bool.not_eq_true]
        intro hdigit
        exact hmaximal ['.', d] (by simp) ⟨more, rfl⟩ _ (spells_number (isNumber.point hpoint hdigit))
  | @literal quote body text quoted decodes =>
      have hslash : quote ≠ '\\' := by rcases quoted with rfl | rfl <;> decide
      refine ⟨quote, body ++ [quote], rfl, ?_, ?_⟩
      · rcases quoted with rfl | rfl <;> rfl
      · have hcut : cut offset quote (body ++ [quote] ++ rest) = cutString offset quote (body ++ quote :: rest) := by
          rw [List.append_assoc, List.singleton_append]
          rcases quoted with rfl | rfl <;> rfl
        rw [hcut, cutString, literalBody_of_decodes hslash decodes]
        dsimp only
        rw [String.ofList_toList]

end Spelled

/-! ### What is cut off is a spelled token -/

theorem spells_cutName {c : Char} {rest : List Char} (h : isNameStart c = true) :
    Spells (cutName .ident [] (c :: rest)).kind (cutName .ident [] (c :: rest)).lexeme :=
  spells_ident (isName_takeWhile h)

theorem spells_cutCall {offset : Nat} {cs : List Char} {t : Cut} (h : cutCall offset cs = .ok t) :
    Spells t.kind t.lexeme := by
  unfold cutCall at h
  split at h
  · next hstart =>
      cases h
      cases cs with
      | nil => cases hstart
      | cons c rest =>
          exact spells_call (isName_takeWhile hstart)
  · cases h

theorem isDigit_of_mem_takeWhile {cs : List Char} {c : Char} (h : c ∈ cs.takeWhile Char.isDigit) :
    c.isDigit = true :=
  List.all_eq_true.mp List.all_takeWhile c h

/-- A number starts with a digit, or with a point and a digit. -/
theorem spells_cutNumber {c : Char} {rest : List Char}
    (h : c.isDigit = true ∨ c = '.' ∧ (rest.head?.map Char.isDigit).getD false = true) :
    Spells (cutNumber (c :: rest)).kind (cutNumber (c :: rest)).lexeme := by
  have hdigits (cs : List Char) : ∀ d ∈ cs.takeWhile Char.isDigit, d.isDigit = true :=
    fun _ => isDigit_of_mem_takeWhile
  have hwhole : (∀ d more, (c :: rest).dropWhile Char.isDigit = '.' :: d :: more → d.isDigit = false) →
      (c :: rest).takeWhile Char.isDigit ≠ [] := by
    intro hstop
    rcases h with hc | ⟨rfl, hrest⟩
    · simp [List.takeWhile_cons_of_pos hc]
    · cases rest with
      | nil => cases hrest
      | cons d more =>
          have hd : d.isDigit = true := hrest
          rw [hstop d more (List.dropWhile_cons_of_neg (by decide))] at hd
          cases hd
  unfold cutNumber
  split
  · next d more heq =>
      split
      · next hd =>
          refine spells_number (.pointed (hdigits _) (hdigits _) ?_)
          simp [List.takeWhile_cons_of_pos hd]
      · next hd =>
          refine spells_number (.whole (hdigits _) (hwhole fun d' more' heq' => ?_))
          rw [heq] at heq'
          cases heq'
          exact Bool.not_eq_true _ ▸ hd
  · next hother =>
      exact spells_number (.whole (hdigits _) (hwhole fun d more heq => absurd heq (hother d more)))

theorem exists_decodes {quote : Char} {cs text lexeme rest : List Char}
    (h : literalBody quote cs = .closed text lexeme rest) :
    ∃ body, lexeme = body ++ [quote] ∧ Decodes quote body text := by
  induction cs using literalBody.induct quote generalizing text lexeme rest with
  | case1 => simp [literalBody] at h
  | case2 => simp [literalBody] at h
  | case3 c tail d hd ih =>
      simp only [literalBody, hd] at h
      cases hb : literalBody quote tail <;> simp [hb, LiteralBody.prepend] at h
      obtain ⟨rfl, rfl, -⟩ := h
      obtain ⟨body, rfl, hdecodes⟩ := ih hb
      exact ⟨'\\' :: c :: body, rfl, .escape (unescape?_eq_some.mp hd) hdecodes⟩
  | case4 c tail hd => simp [literalBody, hd] at h
  | case5 tail h1 h2 =>
      simp only [literalBody, if_true] at h
      cases h
      exact ⟨[], rfl, .nil⟩
  | case6 c tail h1 h2 hquote ih =>
      simp only [literalBody, hquote, if_false] at h
      cases hb : literalBody quote tail <;> simp [hb, LiteralBody.prepend] at h
      obtain ⟨rfl, rfl, -⟩ := h
      obtain ⟨body, rfl, hdecodes⟩ := ih hb
      refine ⟨c :: body, rfl, .plain hquote ?_ hdecodes⟩
      rintro rfl
      cases tail with
      | nil => exact h1 rfl rfl
      | cons d more => exact h2 d more rfl rfl

theorem spells_cutString {offset : Nat} {quote : Char} {cs : List Char} {t : Cut}
    (hquote : quote = '\'' ∨ quote = '"')
    (h : cutString offset quote cs = .ok t) : Spells t.kind t.lexeme := by
  unfold cutString at h
  split at h
  · next text lexeme rest hbody =>
      cases h
      obtain ⟨body, rfl, hdecodes⟩ := exists_decodes hbody
      exact .literal hquote (by rwa [String.toList_ofList])
  · cases h
  · cases h

theorem spells_cutOperator {offset : Nat} {c : Char} {rest : List Char} {t : Cut}
    (h : cutOperator offset c rest = .ok t) : Spells t.kind t.lexeme := by
  have hop {cs : List Char} (hknown : String.ofList cs ∈ pairOps ++ singleOps) :
      Spells (.op (String.ofList cs)) cs := by
    have hspells := Spells.op hknown
    rwa [String.toList_ofList] at hspells
  unfold cutOperator at h
  dsimp only at h
  split at h
  · next hpair =>
      cases h
      exact hop (List.mem_append_left _ (List.contains_iff_mem.mp hpair))
  split at h
  · next hquestion =>
      cases h
      subst hquestion
      exact .question
  split at h
  · next hsingle =>
      cases h
      exact hop (List.mem_append_right _ (List.contains_iff_mem.mp hsingle))
  · cases h

theorem spells_cut {offset : Nat} {c : Char} {rest : List Char} {t : Cut} (h : cut offset c rest = .ok t) :
    Spells t.kind t.lexeme := by
  cases cuts_of_cut h with
  | leftParen => exact .leftParen
  | rightParen => exact .rightParen
  | comma => exact .comma
  | colon => exact .colon
  | dot => exact .dot
  | string quoted h => exact spells_cutString quoted h
  | call h => exact spells_cutCall h
  | fraction digit => exact spells_cutNumber (.inr ⟨rfl, digit⟩)
  | number digit => exact spells_cutNumber (.inl digit)
  | name start => exact spells_cutName start
  | operator h => exact spells_cutOperator h

/-- A token is cut off with all of the text that it can be spelled with. -/
theorem maximal_of_cut {offset : Nat} {c : Char} {rest : List Char} {t : Cut} (h : cut offset c rest = .ok t) :
    Maximal t.lexeme t.rest := by
  have htaken := (cut_takes h).1
  -- Of the longer spellings the longest one goes as far as it can, and would have been cut off.
  suffices hlongest : ∀ n more left, left.length = n → t.rest = more ++ left → ∀ kind,
      Spells kind (t.lexeme ++ more) → more = [] by
    rintro more hmore ⟨left, hleft⟩ kind hspells
    exact hmore (hlongest _ more left rfl hleft.symm kind hspells)
  intro n
  induction n using Nat.strongRecOn with
  | ind n ih =>
      intro more left hlength hrest kind hspells
      by_cases hmaximal : Maximal (t.lexeme ++ more) left
      · obtain ⟨d, ds, hds, -, hcut⟩ := cut_spelled hspells hmaximal offset
        have htext : c :: rest = d :: (ds ++ left) := by
          rw [← htaken, hrest, ← List.append_assoc, hds]
          rfl
        cases htext
        have hsame : t.lexeme ++ more = t.lexeme := congrArg Cut.lexeme (Except.ok.inj (hcut.symm.trans h))
        exact List.append_cancel_left (hsame.trans (List.append_nil _).symm)
      · simp only [Maximal, not_forall, not_not] at hmaximal
        obtain ⟨further, hfurther, ⟨left', rfl⟩, kind', hspells'⟩ := hmaximal
        have hshorter : left'.length < n := by
          have hpos := List.length_pos_iff.mpr hfurther
          rw [List.length_append] at hlength
          omega
        have hnone := ih _ hshorter (more ++ further) left' rfl (by rw [hrest, List.append_assoc]) kind'
          (by rwa [← List.append_assoc])
        exact absurd (List.append_eq_nil_iff.mp hnone).2 hfurther

/-! ### Sources -/

theorem isBlanks_takeWhile (cs : List Char) : IsBlanks (cs.takeWhile isBlank) :=
  fun c hc => List.all_eq_true.mp List.all_takeWhile c hc

theorem tokensFrom_joined {pieces : List Piece} {last : List Char} (h : WellCut pieces last) (offset : Nat) :
    tokensFrom offset (joined pieces last) = .ok (tokensAt offset pieces) := by
  induction h generalizing offset with
  | @nil last blank =>
      refine tokensFrom_blanks ?_
      rw [joined, ← List.append_nil last]
      exact dropWhile_run blank (by rintro c ⟨⟩)
  | @cons piece pieces last blank spelled maximal _ ih =>
      obtain ⟨c, cs, hlexeme, hc, hcut⟩ :=
        cut_spelled spelled maximal (offset + byteLength piece.blanks)
      have hstop : ∀ d ∈ (c :: (cs ++ joined pieces last)).head?, isBlank d = false := by
        rintro d ⟨⟩
        exact hc
      have hdrop := dropWhile_run blank hstop
      have htake := takeWhile_run blank hstop
      rw [joined, hlexeme, List.cons_append, tokensFrom_token hdrop, htake, hcut, ok_bind]
      dsimp only
      rw [ih]
      rfl

theorem exists_joined {offset : Nat} {cs : List Char} {tokens : List Token} (h : tokensFrom offset cs = .ok tokens) :
    ∃ pieces last, cs = joined pieces last ∧ WellCut pieces last ∧ tokens = tokensAt offset pieces := by
  fun_induction tokensFrom offset cs generalizing tokens with
  | case1 offset cs htext =>
      cases h
      have hblank := isBlanks_takeWhile cs
      have hall : cs.takeWhile isBlank = cs := by
        rw [← List.append_nil (cs.takeWhile isBlank), ← htext, List.takeWhile_append_dropWhile]
      exact ⟨[], cs, rfl, .nil (hall ▸ hblank), rfl⟩
  | case2 => cases h
  | case3 offset cs c rest htext start t htaken =>
      rename_i ih
      rw [bind_eq_ok] at h
      obtain ⟨others, hothers, h⟩ := h
      cases h
      obtain ⟨pieces, last, hrest, hwell, rfl⟩ := ih hothers
      refine ⟨⟨cs.takeWhile isBlank, t.kind, t.lexeme⟩ :: pieces, last, ?_, ?_, rfl⟩
      · rw [joined, ← hrest, (cut_takes htaken).1, ← htext, List.takeWhile_append_dropWhile]
      · refine .cons (isBlanks_takeWhile cs) (spells_cut htaken) ?_ hwell
        rw [← hrest]
        exact maximal_of_cut htaken

/-! ### Places -/

theorem Spells.ne_nil {kind : Kind} {lexeme : List Char} (h : Spells kind lexeme) : lexeme ≠ [] := by
  have hmaximal : Maximal lexeme [] := fun more hmore hnil => absurd (List.prefix_nil.mp hnil) hmore
  obtain ⟨c, cs, rfl, -⟩ := cut_spelled h hmaximal 0
  exact List.cons_ne_nil c cs

theorem byteLength_pos {cs : List Char} (h : cs ≠ []) : 0 < byteLength cs := by
  obtain ⟨c, cs, rfl⟩ := List.exists_cons_of_ne_nil h
  exact Nat.add_pos_left c.utf8Size_pos _

theorem utf8ByteSize_ofList (cs : List Char) : (String.ofList cs).utf8ByteSize = byteLength cs := by
  induction cs with
  | nil => rfl
  | cons c cs ih =>
      rw [String.ofList_cons, String.utf8ByteSize_append, String.utf8ByteSize_singleton, ih, byteLength_cons]

theorem le_offset_of_mem {offset : Nat} {pieces : List Piece} {token : Token} (h : token ∈ tokensAt offset pieces) :
    offset ≤ token.offset := by
  induction pieces generalizing offset with
  | nil => cases h
  | cons piece pieces ih =>
      rcases List.mem_cons.mp h with rfl | h
      · exact Nat.le_add_right ..
      · have hlater := ih h
        omega

/-- Every token starts behind the start of the one before it. -/
theorem ascending_offsets {pieces : List Piece} {last : List Char} (h : WellCut pieces last) (offset : Nat) :
    ((tokensAt offset pieces).map Token.offset).Pairwise (· < ·) := by
  induction h generalizing offset with
  | nil => exact List.Pairwise.nil
  | cons _ spelled _ _ ih =>
      refine List.pairwise_cons.mpr ⟨fun place hplace => ?_, ih _⟩
      obtain ⟨token, htoken, rfl⟩ := List.mem_map.mp hplace
      have hlater := le_offset_of_mem htoken
      have hlexeme := byteLength_pos spelled.ne_nil
      dsimp only
      omega

/-- A token stands in the source as one of its pieces, behind as many bytes as it says. -/
theorem exists_piece {offset : Nat} {pieces : List Piece} (last : List Char) {token : Token}
    (h : token ∈ tokensAt offset pieces) :
    ∃ piece ∈ pieces, ∃ front back, token.kind = piece.kind ∧
      joined pieces last = front ++ (piece.lexeme ++ back) ∧ token.offset = offset + byteLength front := by
  induction pieces generalizing offset with
  | nil => cases h
  | cons piece pieces ih =>
      rcases List.mem_cons.mp h with rfl | h
      · exact ⟨piece, List.mem_cons_self .., piece.blanks, joined pieces last, rfl, rfl, rfl⟩
      · obtain ⟨other, hother, front, back, hkind, hjoined, hoffset⟩ := ih h
        refine ⟨other, List.mem_cons_of_mem _ hother, piece.blanks ++ (piece.lexeme ++ front), back, hkind, ?_, ?_⟩
        · rw [joined, hjoined, List.append_assoc, List.append_assoc]
        · rw [hoffset, byteLength_append, byteLength_append, Nat.add_assoc, Nat.add_assoc]

/-- A token starts where so many bytes of the source end with a character. -/
theorem exists_front {offset : Nat} {pieces : List Piece} (last : List Char) {token : Token}
    (h : token ∈ tokensAt offset pieces) :
    ∃ front back, joined pieces last = front ++ back ∧ token.offset = offset + byteLength front := by
  obtain ⟨piece, -, front, back, -, hjoined, hoffset⟩ := exists_piece last h
  exact ⟨front, piece.lexeme ++ back, hjoined, hoffset⟩

/-- A source is cut into tokens exactly if it is a row of spelled tokens between white space, each of which goes as
far as it can, and these are its tokens. Each token starts at a character of the source, behind the start of the one
before it. -/
theorem tokenize_exact (source : String) (tokens : List Token) :
    (tokenize source = .ok tokens ↔
      ∃ pieces last, source.toList = joined pieces last ∧ WellCut pieces last ∧ tokens = tokensAt 0 pieces) ∧
    (tokenize source = .ok tokens →
      (tokens.map Token.offset).Pairwise (· < ·) ∧
        ∀ token ∈ tokens, (String.Pos.Raw.mk token.offset).IsValid source) := by
  refine ⟨⟨exists_joined, ?_⟩, fun h => ?_⟩
  · rintro ⟨pieces, last, hsource, hwell, rfl⟩
    rw [tokenize, hsource]
    exact tokensFrom_joined hwell 0
  · obtain ⟨pieces, last, hsource, hwell, rfl⟩ := exists_joined h
    refine ⟨ascending_offsets hwell 0, fun token htoken => ?_⟩
    obtain ⟨front, back, hjoined, hoffset⟩ := exists_front last htoken
    refine String.Pos.Raw.isValid_iff_exists_append.mpr ⟨String.ofList front, String.ofList back, ?_, ?_⟩
    · rw [← String.ofList_append, ← hjoined, ← hsource, String.ofList_toList]
    · rw [hoffset, Nat.zero_add, ← utf8ByteSize_ofList]
      rfl

/-- White space of three bytes, a string with a character of two bytes in it, and no space where a shorter token would
do. -/
theorem tokenize_exact_unspaced :
    let source := "\u2003'é\\n'<=.5 ?"
    let tokens : List Token := [⟨.string "é\n", 3⟩, ⟨.op "<=", 9⟩, ⟨.number ".5", 11⟩, ⟨.question, 14⟩]
    tokenize source = .ok tokens ∧
      (∃ pieces last, source.toList = joined pieces last ∧ WellCut pieces last ∧ tokens = tokensAt 0 pieces) ∧
      (tokens.map Token.offset).Pairwise (· < ·) ∧
      ∀ token ∈ tokens, (String.Pos.Raw.mk token.offset).IsValid source := by
  intro source tokens
  -- the characters are read off the literal once, not at every step
  have hchars : source.toList = ['\u2003', '\'', 'é', '\\', 'n', '\'', '<', '=', '.', '5', ' ', '?'] := by
    decide +kernel
  have htokens : (tokenize source).toOption = some tokens := by
    rw [tokenize, hchars]
    decide +kernel
  obtain ⟨hpieces, hplaces⟩ := tokenize_exact source tokens
  rw [toOption_eq_some] at htokens
  exact ⟨htokens, hpieces.mp htokens, hplaces htokens⟩

end StampedPrograms.Token
