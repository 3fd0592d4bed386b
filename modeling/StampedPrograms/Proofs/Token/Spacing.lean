import StampedPrograms.Proofs.Token.Pieces

/-!
White space between tokens. What a token could go on with never reaches over white space, so a row of tokens stays
one if white space is put between them, and tokens that are written out with white space between them are a row.
-/

namespace StampedPrograms.Token

variable {kind : Kind} {lexeme rest rest' last last' : List Char} {pieces pieces' : List Piece}

/-! ### Spellings -/

theorem maximal_nil (lexeme : List Char) : Maximal lexeme [] :=
  fun _ hmore hnil => absurd (List.prefix_nil.mp hnil) hmore

/-- The written form of a token is one of its spellings. -/
theorem spells_spelling (h : kind.Writable) : Spells kind kind.spelling := by
  cases kind with
  | leftParen => exact .leftParen
  | rightParen => exact .rightParen
  | comma => exact .comma
  | question => exact .question
  | colon => exact .colon
  | dot => exact .dot
  | op symbol => exact .op h
  | ident name => exact .ident h
  | call name =>
      have hspelling : (Kind.call name).spelling = '@' :: name.toList := String.toList_append
      rw [hspelling]
      exact .call h
  | string text => exact .literal (.inl rfl) (decodes_flatMap text.toList)
  | number text => exact .number h

theorem isBlank_namePart {c : Char} (h : isNamePart c = true) : isBlank c = false := by
  rw [isNamePart, Bool.or_eq_true, Char.isAlphanum, Bool.or_eq_true, isAlpha_iff, beq_iff_eq] at h
  rcases h with (hletter | hdigit) | rfl
  · exact isBlank_visible (by omega) (by omega)
  · exact isBlank_digit hdigit
  · rfl

theorem isBlank_numberPart {c : Char} (h : isNumberPart c = true) : isBlank c = false := by
  rw [isNumberPart, Bool.or_eq_true, beq_iff_eq] at h
  rcases h with hdigit | rfl
  · exact isBlank_digit hdigit
  · rfl

/-- White space stands in no token but strings. -/
theorem Spells.visible (h : Spells kind lexeme) (hkind : ∀ text, kind ≠ .string text) :
    ∀ c ∈ lexeme, isBlank c = false := by
  cases h with
  | @op symbol known =>
      have hall : ∀ symbol ∈ pairOps ++ singleOps, (symbol.toList.all fun c => !isBlank c) = true := by decide
      simpa using hall symbol known
  | ident isName => exact fun c hc => isBlank_namePart (isName.isNamePart c hc)
  | call isName =>
      intro c hc
      rcases List.mem_cons.mp hc with rfl | hc
      · rfl
      · exact isBlank_namePart (isName.isNamePart c hc)
  | number isNumber => exact fun c hc => isBlank_numberPart (isNumber.isNumberPart c hc)
  | literal => exact absurd rfl (hkind _)
  | _ => simp only [List.mem_singleton]; rintro c rfl; rfl

/-- The spelling of a string ends with its closing quote: nothing that begins with another spelling is one. -/
theorem Spells.eq_nil_of_string {text : String} {more : List Char} (hwhole : Spells (.string text) (lexeme ++ more))
    (h : Spells kind lexeme) : more = [] := by
  obtain ⟨c, cs, hlexeme, -, hcut⟩ := cut_spelled h (maximal_nil lexeme) 0
  generalize hsame : lexeme ++ more = whole at hwhole
  cases hwhole with
  | @literal quote body text quoted decodes =>
      have hslash : quote ≠ '\\' := by rcases quoted with rfl | rfl <;> decide
      rw [hlexeme] at hsame
      obtain ⟨rfl, htail⟩ := List.cons.inj hsame
      have hquote : cut 0 c (cs ++ []) = cutString 0 c (cs ++ []) := by rcases quoted with rfl | rfl <;> rfl
      rw [hquote, List.append_nil, cutString] at hcut
      split at hcut
      · next body' tail rest hbody =>
          cases hcut
          obtain ⟨inner, hinner, hdecodes⟩ := exists_decodes hbody
          have hsources : inner ++ [c] ++ more = body ++ [c] := by
            rw [← hinner, (List.cons.inj hlexeme).2]
            exact htail
          rw [List.append_assoc, List.singleton_append] at hsources
          have hshort := literalBody_of_decodes hslash hdecodes more
          rw [hsources, literalBody_of_decodes hslash decodes []] at hshort
          injection hshort with _ _ hnil
          exact hnil.symm
      · cases hcut
      · cases hcut

/-! ### Texts that go on alike -/

/-- The second text goes on as the first one does, up to white space or its own end. -/
def Agrees (rest rest' : List Char) : Prop :=
  ∃ common left left', rest = common ++ left ∧ rest' = common ++ left' ∧ ∀ c ∈ left'.head?, isBlank c = true

theorem agrees_blank (h : ∀ c ∈ rest'.head?, isBlank c = true) : Agrees rest rest' :=
  ⟨[], rest, rest', rfl, rfl, h⟩

theorem Agrees.append (h : Agrees rest rest') (cs : List Char) : Agrees (cs ++ rest) (cs ++ rest') := by
  obtain ⟨common, left, left', rfl, rfl, hblank⟩ := h
  exact ⟨cs ++ common, left, left', (List.append_assoc ..).symm, (List.append_assoc ..).symm, hblank⟩

/-- A token that goes as far as it can does so too where its text goes on alike. -/
theorem Maximal.of_agrees (hmaximal : Maximal lexeme rest) (hspells : Spells kind lexeme)
    (hagrees : Agrees rest rest') : Maximal lexeme rest' := by
  obtain ⟨common, left, left', rfl, rfl, hblank⟩ := hagrees
  rintro more hmore ⟨tail, htail⟩ kind' hspells'
  rcases List.append_eq_append_iff.mp htail with ⟨beyond, hcommon, -⟩ | ⟨beyond, hmore', hleft'⟩
  · refine hmaximal more hmore ?_ kind' hspells'
    rw [hcommon, List.append_assoc]
    exact List.prefix_append ..
  · cases beyond with
    | nil =>
        refine hmaximal more hmore ?_ kind' hspells'
        rw [hmore', List.append_nil]
        exact List.prefix_append ..
    | cons c beyond =>
        -- the longer spelling would have white space in it
        have hc : isBlank c = true := hblank c (by rw [hleft']; rfl)
        have hmem : c ∈ lexeme ++ more := by simp [hmore']
        by_cases hstring : ∃ text, kind' = .string text
        · obtain ⟨text, rfl⟩ := hstring
          exact hmore (hspells'.eq_nil_of_string hspells)
        · have hvisible := hspells'.visible (fun text heq => hstring ⟨text, heq⟩) c hmem
          rw [hc] at hvisible
          cases hvisible

theorem IsBlanks.head {cs : List Char} (h : IsBlanks cs) : ∀ c ∈ cs.head?, isBlank c = true :=
  fun c hc => h c (List.mem_of_mem_head? hc)

/-- White space in front of whatever follows. -/
theorem IsBlanks.head_append {cs : List Char} (h : IsBlanks cs) (hne : cs ≠ []) (rest : List Char) :
    ∀ c ∈ (cs ++ rest).head?, isBlank c = true := by
  obtain ⟨d, ds, rfl⟩ := List.exists_cons_of_ne_nil hne
  rintro c ⟨⟩
  exact h d (List.mem_cons_self ..)

/-! ### Rows of tokens -/

/-- The token written out behind white space. -/
def Piece.IsWritten (piece : Piece) : Prop :=
  IsBlanks piece.blanks ∧ piece.kind.Writable ∧ piece.lexeme = piece.kind.spelling

/-- Tokens written out, with white space between any two of them. -/
theorem wellCut_written (hpieces : ∀ piece ∈ pieces, piece.IsWritten)
    (hgaps : ∀ piece ∈ pieces.tail, piece.blanks ≠ [])
    (hlast : IsBlanks last) : WellCut pieces last := by
  induction pieces with
  | nil => exact .nil hlast
  | cons piece pieces ih =>
      obtain ⟨hblanks, hkind, hlexeme⟩ := hpieces piece (List.mem_cons_self ..)
      have hothers : ∀ other ∈ pieces, other.IsWritten := fun other hother =>
        hpieces other (List.mem_cons_of_mem _ hother)
      have hspells : Spells piece.kind piece.lexeme := hlexeme ▸ spells_spelling hkind
      refine .cons hblanks hspells ((maximal_nil _).of_agrees hspells (agrees_blank ?_)) ?_
      · cases pieces with
        | nil => exact hlast.head
        | cons next pieces =>
            have hnext := hothers next (List.mem_cons_self ..)
            exact hnext.1.head_append (hgaps next (List.mem_cons_self ..)) _
      · exact ih hothers fun other hother => hgaps other (List.mem_of_mem_tail hother)

/-- The same token with white space in front of it, some at least if there was some. -/
structure Piece.Respaced (piece piece' : Piece) : Prop where
  kind : piece'.kind = piece.kind
  lexeme : piece'.lexeme = piece.lexeme
  blank : IsBlanks piece'.blanks
  kept : piece'.blanks = [] → piece.blanks = []

theorem agrees_respaced (h : List.Forall₂ Piece.Respaced pieces pieces') (hlast' : IsBlanks last') :
    Agrees (joined pieces last) (joined pieces' last') := by
  induction h with
  | nil => exact agrees_blank hlast'.head
  | @cons piece piece' pieces pieces' hpiece _ ih =>
      rw [joined, joined, hpiece.lexeme]
      by_cases hgap : piece'.blanks = []
      · rw [hgap, hpiece.kept hgap, List.nil_append, List.nil_append]
        exact ih.append piece.lexeme
      · exact agrees_blank (hpiece.blank.head_append hgap _)

theorem WellCut.respaced (h : WellCut pieces last) (hrespaced : List.Forall₂ Piece.Respaced pieces pieces')
    (hlast' : IsBlanks last') : WellCut pieces' last' := by
  induction hrespaced with
  | nil => exact .nil hlast'
  | @cons piece piece' pieces pieces' hpiece hothers ih =>
      cases h with
      | cons blank spelled maximal rest =>
          refine .cons hpiece.blank ?_ ?_ (ih rest)
          · rw [hpiece.kind, hpiece.lexeme]
            exact spelled
          · rw [hpiece.lexeme]
            exact maximal.of_agrees spelled (agrees_respaced hothers hlast')

theorem kinds_tokensAt (offset : Nat) (pieces : List Piece) :
    (tokensAt offset pieces).map Token.kind = pieces.map Piece.kind := by
  induction pieces generalizing offset with
  | nil => rfl
  | cons piece pieces ih => rw [tokensAt, List.map_cons, List.map_cons, ih]

theorem kinds_respaced (h : List.Forall₂ Piece.Respaced pieces pieces') :
    pieces'.map Piece.kind = pieces.map Piece.kind := by
  induction h with
  | nil => rfl
  | cons hpiece _ ih => rw [List.map_cons, List.map_cons, hpiece.kind, ih]

end StampedPrograms.Token
