import StampedPrograms.Text.Quoted
import StampedPrograms.Proofs.Text.Runs
import StampedPrograms.Proofs.Token.Lexer

/-!
Tokens that are written out are cut off again. A text that begins with a token, a string being written
as a literal, is cut into this token and the rest, unless the rest could go on with the token. So a text
put together of tokens, with white space where one would go on with the next, is cut into these tokens.
-/

namespace StampedPrograms.Token

/-- Digits, or digits after a point, which may have digits before it. -/
inductive IsNumber : List Char → Prop where
  | whole {digits : List Char} (all : ∀ c ∈ digits, c.isDigit = true) (nonempty : digits ≠ []) :
      IsNumber digits
  | pointed {digits fraction : List Char} (all : ∀ c ∈ digits, c.isDigit = true)
      (all_fraction : ∀ c ∈ fraction, c.isDigit = true) (nonempty : fraction ≠ []) :
      IsNumber (digits ++ '.' :: fraction)

theorem isName_of_all {cs : List Char} (hstart : cs.head?.any isNameStart = true)
    (hparts : cs.all isNamePart = true) : IsName cs := by
  cases cs with
  | nil => cases hstart
  | cons c cs =>
      refine ⟨c, cs, rfl, hstart, fun d hd => ?_⟩
      exact List.all_eq_true.mp hparts d (List.mem_cons_of_mem c hd)

theorem IsNumber.isNumberPart {cs : List Char} (h : IsNumber cs) :
    ∀ c ∈ cs, Token.isNumberPart c = true := by
  have hdigit {c : Char} (hc : c.isDigit = true) : Token.isNumberPart c = true := by
    rw [Token.isNumberPart, hc, Bool.true_or]
  cases h with
  | whole all => exact fun c hc => hdigit (all c hc)
  | pointed all all_fraction =>
      intro c hc
      rcases List.mem_append.mp hc with hc | hc
      · exact hdigit (all c hc)
      rcases List.mem_cons.mp hc with rfl | hc
      · rfl
      · exact hdigit (all_fraction c hc)

theorem IsNumber.ne_nil {cs : List Char} (h : IsNumber cs) : cs ≠ [] := by
  cases h with
  | whole _ nonempty => exact nonempty
  | pointed => exact List.append_ne_nil_of_right_ne_nil _ (List.cons_ne_nil _ _)

namespace Kind

/-- Names, numbers and operators are such as sources have; strings may hold anything. -/
def Writable : Kind → Prop
  | .op symbol => symbol ∈ pairOps ++ singleOps
  | .ident name => IsName name.toList
  | .call name => IsName name.toList
  | .number text => IsNumber text.toList
  | _ => True

/-- The token as it is written in a source. -/
def spelling : Kind → List Char
  | .string text => Quoted.script text
  | kind => kind.shown.toList

/-- Whether a character right after the token would be read as a part of it. -/
def continues : Kind → Char → Bool
  | .op symbol, c => pairOps.contains (String.ofList (symbol.toList ++ [c]))
  | .question, c => c == '?'
  | .dot, c => c.isDigit
  | .ident _, c => isNamePart c
  | .call _, c => isNamePart c
  | .number _, c => isNumberPart c
  | _, _ => false

/-- What may follow the token for it to end where it was written to. -/
def Ends (kind : Kind) (rest : List Char) : Prop :=
  ∀ c ∈ rest.head?, kind.continues c = false

end Kind

/-! ### Where the first character leads -/

theorem isBlank_visible {c : Char} (h : 0x21 ≤ c.toNat) (h' : c.toNat ≤ 0x7E) : isBlank c = false := by
  simp only [isBlank, Bool.or_eq_false_iff, Bool.and_eq_false_iff, decide_eq_false_iff_not,
    beq_eq_false_iff_ne]
  omega

theorem isBlank_digit {c : Char} (h : c.isDigit = true) : isBlank c = false := by
  have hrange : 0x30 ≤ c.toNat ∧ c.toNat ≤ 0x39 := by
    simpa [Char.isDigit, UInt32.le_iff_toNat_le] using h
  exact isBlank_visible (by omega) (by omega)

theorem isAlpha_iff {c : Char} :
    c.isAlpha = true ↔
      (0x41 ≤ c.toNat ∧ c.toNat ≤ 0x5A) ∨ (0x61 ≤ c.toNat ∧ c.toNat ≤ 0x7A) := by
  have hupper : c.isUpper = decide (c.val ≥ 'A'.val ∧ c.val ≤ 'Z'.val) := rfl
  have hlower : c.isLower = (decide (c.val ≥ 'a'.val) && decide (c.val ≤ 'z'.val)) := rfl
  show (c.isUpper || c.isLower) = true ↔ _
  rw [hupper, hlower]
  simp [UInt32.le_iff_toNat_le]

theorem isBlank_nameStart {c : Char} (h : isNameStart c = true) : isBlank c = false := by
  rw [isNameStart, Bool.or_eq_true, isAlpha_iff, beq_iff_eq] at h
  rcases h with hletter | rfl
  · exact isBlank_visible (by omega) (by omega)
  · rfl

/-- The characters that tell by themselves how a token goes on. -/
def marks : List Char :=
  ['(', ')', ',', ':', '\'', '"', '@', '.']

theorem cut_unmarked {c : Char} (h : c ∉ marks) (offset : Nat) (rest : List Char) :
    cut offset c rest =
      if c.isDigit then .ok (cutNumber (c :: rest))
      else if isNameStart c then .ok (cutName .ident [] (c :: rest))
      else cutOperator offset c rest := by
  simp only [marks, List.mem_cons, List.not_mem_nil, or_false, not_or] at h
  simp only [cut, h, or_self, if_false]

/-- A character of a class that has none of the marks is none of them. -/
theorem not_mem_marks {p : Char → Bool} (hp : marks.any p = false) {c : Char} (h : p c = true) :
    c ∉ marks := by
  intro hc
  have hany : marks.any p = true := List.any_eq_true.mpr ⟨c, hc, h⟩
  rw [hp] at hany
  cases hany

theorem cut_digit {c : Char} (h : c.isDigit = true) (offset : Nat) (rest : List Char) :
    cut offset c rest = .ok (cutNumber (c :: rest)) := by
  rw [cut_unmarked (not_mem_marks rfl h), if_pos h]

theorem isDigit_of_isNameStart {c : Char} (h : isNameStart c = true) : c.isDigit = false := by
  rw [isNameStart, Bool.or_eq_true, isAlpha_iff, beq_iff_eq] at h
  rcases h with hletter | rfl
  · simp only [Char.isDigit, Bool.and_eq_false_iff, decide_eq_false_iff_not, UInt32.le_iff_toNat_le]
    right
    show ¬ c.toNat ≤ 0x39
    omega
  · rfl

theorem cut_nameStart {c : Char} (h : isNameStart c = true) (offset : Nat) (rest : List Char) :
    cut offset c rest = .ok (cutName .ident [] (c :: rest)) := by
  rw [cut_unmarked (not_mem_marks rfl h), isDigit_of_isNameStart h, if_neg Bool.false_ne_true,
    if_pos h]

theorem cut_call (offset : Nat) (rest : List Char) : cut offset '@' rest = cutCall offset rest := rfl

theorem cut_quote (offset : Nat) (rest : List Char) :
    cut offset '\'' rest = cutString offset '\'' rest := rfl

theorem cut_point {d : Char} (h : d.isDigit = true) (offset : Nat) (rest : List Char) :
    cut offset '.' (d :: rest) = .ok (cutNumber ('.' :: d :: rest)) :=
  if_pos h

theorem cut_number {number : List Char} (h : IsNumber number) (offset : Nat) (rest : List Char) :
    ∃ c cs, number = c :: cs ∧ isBlank c = false ∧
      cut offset c (cs ++ rest) = .ok (cutNumber (number ++ rest)) := by
  cases h with
  | whole all nonempty =>
      obtain ⟨c, cs, rfl⟩ := List.exists_cons_of_ne_nil nonempty
      have hc : c.isDigit = true := all c (List.mem_cons_self ..)
      exact ⟨c, cs, rfl, isBlank_digit hc, cut_digit hc offset _⟩
  | @pointed digits fraction all all_fraction nonempty =>
      cases digits with
      | nil =>
          obtain ⟨d, more, rfl⟩ := List.exists_cons_of_ne_nil nonempty
          exact ⟨'.', d :: more, rfl, rfl, cut_point (all_fraction d (List.mem_cons_self ..)) offset _⟩
      | cons c digits =>
          have hc : c.isDigit = true := all c (List.mem_cons_self ..)
          exact ⟨c, digits ++ '.' :: fraction, rfl, isBlank_digit hc, cut_digit hc offset _⟩

/-! ### What is cut off -/

theorem cutName_run (kind : String → Kind) (before : List Char) {name rest : List Char}
    (hname : ∀ c ∈ name, isNamePart c = true) (hrest : ∀ c ∈ rest.head?, isNamePart c = false) :
    cutName kind before (name ++ rest) = ⟨kind (String.ofList name), before ++ name, rest⟩ := by
  rw [cutName, takeWhile_run hname hrest, dropWhile_run hname hrest]

/-- A number ends where neither a digit nor, if it has no point yet, a point with a digit behind it follows. -/
theorem cutNumber_run {number rest : List Char} (h : IsNumber number)
    (hdigit : ∀ c ∈ rest.head?, c.isDigit = false)
    (hpoint : '.' ∉ number → ∀ d more, rest = '.' :: d :: more → d.isDigit = false) :
    cutNumber (number ++ rest) = ⟨.number (String.ofList number), number, rest⟩ := by
  cases h with
  | whole all nonempty =>
      have hwhole : '.' ∉ number := fun hmem => Bool.false_ne_true (all '.' hmem)
      rw [cutNumber, takeWhile_run all hdigit, dropWhile_run all hdigit]
      split
      · next d more => rw [hpoint hwhole d more rfl, if_neg Bool.false_ne_true]
      · rfl
  | @pointed digits fraction all all_fraction nonempty =>
      obtain ⟨d, more, rfl⟩ := List.exists_cons_of_ne_nil nonempty
      have hstop : ∀ c ∈ ('.' :: ((d :: more) ++ rest)).head?, c.isDigit = false := by
        rintro c ⟨⟩
        rfl
      have hd : d.isDigit = true := all_fraction d (List.mem_cons_self ..)
      have hrun := takeWhile_run all_fraction hdigit
      have hleft := dropWhile_run all_fraction hdigit
      rw [List.append_assoc, List.cons_append, cutNumber, takeWhile_run all hstop,
        dropWhile_run all hstop]
      simp only [List.cons_append] at hrun hleft ⊢
      simp only [hd, if_true, hrun, hleft]

/-! ### Literals -/

/-- What may stand behind a backslash in a literal, and what the two stand for together. -/
def escapes : List (Char × Char) :=
  [('\\', '\\'), ('\'', '\''), ('"', '"'), ('n', '\n'), ('r', '\r'), ('t', '\t')]

theorem unescape?_eq_some {c d : Char} : unescape? c = some d ↔ (c, d) ∈ escapes := by
  simp only [escapes, List.mem_cons, List.not_mem_nil, or_false, Prod.mk.injEq]
  unfold unescape?
  constructor
  · intro h
    split at h
    · next hc =>
        cases h
        rcases hc with rfl | rfl | rfl <;> simp
    split at h
    · next hc =>
        cases h
        simp [hc]
    split at h
    · next hc =>
        cases h
        simp [hc]
    split at h
    · next hc =>
        cases h
        simp [hc]
    · cases h
  · rintro (⟨rfl, rfl⟩ | ⟨rfl, rfl⟩ | ⟨rfl, rfl⟩ | ⟨rfl, rfl⟩ | ⟨rfl, rfl⟩ | ⟨rfl, rfl⟩) <;> rfl

/-- The text that the body of a literal stands for: every character stands for itself, but for a backslash and the
one behind it. The quote that ends the literal is not in the body other than behind a backslash. -/
inductive Decodes (quote : Char) : List Char → List Char → Prop where
  | nil : Decodes quote [] []
  | plain {c : Char} {body text : List Char} (unquoted : c ≠ quote) (unescaped : c ≠ '\\')
      (rest : Decodes quote body text) : Decodes quote (c :: body) (c :: text)
  | escape {c d : Char} {body text : List Char} (escape : (c, d) ∈ escapes) (rest : Decodes quote body text) :
      Decodes quote ('\\' :: c :: body) (d :: text)

/-- The reader of literals reads a body up to the closing quote, whatever follows it. -/
theorem literalBody_of_decodes {quote : Char} (hquote : quote ≠ '\\') {body text : List Char}
    (h : Decodes quote body text) (rest : List Char) :
    literalBody quote (body ++ quote :: rest) = .closed text (body ++ [quote]) rest := by
  induction h with
  | nil => simp [literalBody, hquote]
  | plain hunquoted hunescaped _ ih => simp [literalBody, hunquoted, hunescaped, ih, LiteralBody.prepend]
  | escape hescape _ ih => simp [literalBody, unescape?_eq_some.mpr hescape, ih, LiteralBody.prepend]

/-- The quoting of literals is undone by their reader, whatever the text. -/
theorem decodes_flatMap (text : List Char) : Decodes '\'' (text.flatMap Quoted.scriptChar) text := by
  induction text with
  | nil => exact .nil
  | cons c text ih =>
      rw [List.flatMap_cons, Quoted.scriptChar]
      split
      · next h => exact .escape (by rcases h with rfl | rfl <;> decide) ih
      · next h =>
          rw [not_or] at h
          exact .plain h.2 h.1 ih

/-! ### Operators -/

theorem cut_pairOp {symbol : String} (h : symbol ∈ pairOps) (offset : Nat) (rest : List Char) :
    ∃ c d, symbol.toList = [c, d] ∧ isBlank c = false ∧
      cut offset c (d :: rest) = .ok ⟨.op symbol, symbol.toList, rest⟩ := by
  simp only [pairOps, List.mem_cons, List.not_mem_nil, or_false] at h
  rcases h with rfl | rfl | rfl | rfl | rfl | rfl | rfl
  all_goals exact ⟨_, _, rfl, rfl, rfl⟩

/-- An operator of one character, unless it is the first of two. -/
theorem cutOperator_single {c : Char} {rest : List Char}
    (hrest : ∀ d ∈ rest.head?, pairOps.contains (String.ofList [c, d]) = false)
    (hc : pairOps.contains (String.ofList [c]) = false) (hquestion : c ≠ '?')
    (hsingle : singleOps.contains (String.ofList [c]) = true) (offset : Nat) :
    cutOperator offset c rest = .ok ⟨.op (String.ofList [c]), [c], rest⟩ := by
  have hpair : pairOps.contains (String.ofList ((c :: rest).take 2)) = false := by
    cases rest with
    | nil => exact hc
    | cons d rest => exact hrest d rfl
  simp only [cutOperator, hpair, Bool.false_eq_true, hquestion, hsingle, if_true, if_false]

theorem cut_singleOp {symbol : String} (h : symbol ∈ singleOps) {rest : List Char}
    (hrest : (Kind.op symbol).Ends rest) (offset : Nat) :
    ∃ c, symbol.toList = [c] ∧ isBlank c = false ∧
      cut offset c rest = .ok ⟨.op symbol, symbol.toList, rest⟩ := by
  simp only [singleOps, List.mem_cons, List.not_mem_nil, or_false] at h
  rcases h with rfl | rfl | rfl | rfl | rfl | rfl | rfl | rfl | rfl | rfl
  all_goals
    refine ⟨_, rfl, rfl, (cut_unmarked (by decide) offset rest).trans ?_⟩
    exact cutOperator_single hrest rfl (by decide) rfl offset

/-- A question mark, unless it is the first of two. -/
theorem cutOperator_question {rest : List Char} (hrest : Kind.question.Ends rest) (offset : Nat) :
    cutOperator offset '?' rest = .ok ⟨.question, ['?'], rest⟩ := by
  have hpair : pairOps.contains (String.ofList (('?' :: rest).take 2)) = false := by
    cases rest with
    | nil => rfl
    | cons d rest =>
        have hd : d ≠ '?' := ne_of_beq_false (hrest d rfl)
        simp [pairOps, ← String.toList_inj, hd]
  simp only [cutOperator, hpair, Bool.false_eq_true, if_true, if_false]

/-! ### Written tokens -/

/-- A written token is the first token of what begins with it and could not go on with it. -/
theorem cut_spelling {kind : Kind} (hkind : kind.Writable) {rest : List Char} (hrest : kind.Ends rest)
    (offset : Nat) :
    ∃ c cs, kind.spelling = c :: cs ∧ isBlank c = false ∧
      cut offset c (cs ++ rest) = .ok ⟨kind, kind.spelling, rest⟩ := by
  cases kind with
  | leftParen => exact ⟨_, _, rfl, rfl, rfl⟩
  | rightParen => exact ⟨_, _, rfl, rfl, rfl⟩
  | comma => exact ⟨_, _, rfl, rfl, rfl⟩
  | colon => exact ⟨_, _, rfl, rfl, rfl⟩
  | question =>
      exact ⟨_, _, rfl, rfl, (cut_unmarked (by decide) offset rest).trans
        (cutOperator_question hrest offset)⟩
  | dot =>
      refine ⟨_, _, rfl, rfl, ?_⟩
      have hdigit : (rest.head?.map Char.isDigit).getD false = false := by
        cases rest with
        | nil => rfl
        | cons c rest => exact hrest c rfl
      show (if _ then _ else _) = _
      rw [List.nil_append, hdigit]
      rfl
  | op symbol =>
      rcases List.mem_append.mp hkind with h | h
      · obtain ⟨c, d, hsymbol, hblank, hcut⟩ := cut_pairOp h offset rest
        exact ⟨c, [d], hsymbol, hblank, hcut⟩
      · obtain ⟨c, hsymbol, hblank, hcut⟩ := cut_singleOp h hrest offset
        exact ⟨c, [], hsymbol, hblank, hcut⟩
  | ident name =>
      obtain ⟨c, cs, hname, hstart, -⟩ := id hkind
      refine ⟨c, cs, hname, isBlank_nameStart hstart, (cut_nameStart hstart offset _).trans ?_⟩
      have hparts : ∀ d ∈ c :: cs, isNamePart d = true := hname ▸ IsName.isNamePart hkind
      rw [← List.cons_append, cutName_run _ _ hparts hrest, ← hname, String.ofList_toList]
      rfl
  | call name =>
      obtain ⟨c, cs, hname, hstart, -⟩ := id hkind
      have hspelling : (Kind.call name).spelling = '@' :: name.toList := String.toList_append
      refine ⟨'@', name.toList, hspelling, rfl, ?_⟩
      rw [hspelling, cut_call, cutCall, if_pos]
      · rw [cutName_run _ _ (IsName.isNamePart hkind) hrest, String.ofList_toList]
        rfl
      · simp [hname, hstart]
  | string text =>
      refine ⟨'\'', text.toList.flatMap Quoted.scriptChar ++ ['\''], rfl, rfl, ?_⟩
      rw [cut_quote, List.append_assoc, List.singleton_append, cutString,
        literalBody_of_decodes (by decide) (decodes_flatMap text.toList)]
      dsimp only
      rw [String.ofList_toList]
      rfl
  | number text =>
      obtain ⟨c, cs, htext, hblank, hcut⟩ := cut_number hkind offset rest
      refine ⟨c, cs, htext, hblank, hcut.trans ?_⟩
      have hdigit : ∀ d ∈ rest.head?, d.isDigit = false := fun d hd =>
        (Bool.or_eq_false_iff.mp (hrest d hd)).1
      have hpoint : ∀ d more, rest = '.' :: d :: more → d.isDigit = false := by
        rintro d more rfl
        cases hrest '.' rfl
      rw [cutNumber_run hkind hdigit fun _ => hpoint, String.ofList_toList]
      rfl

/-! ### Texts of several tokens -/

theorem tokensFrom_blanks {offset : Nat} {cs : List Char} (h : cs.dropWhile isBlank = []) :
    tokensFrom offset cs = .ok [] := by
  rw [tokensFrom]
  split
  · rfl
  · next heq => rw [h] at heq; cases heq

theorem tokensFrom_token {offset : Nat} {c : Char} {cs rest : List Char}
    (h : cs.dropWhile isBlank = c :: rest) :
    tokensFrom offset cs =
      cut (offset + byteLength (cs.takeWhile isBlank)) c rest >>= fun t =>
        (tokensFrom (offset + byteLength (cs.takeWhile isBlank) + byteLength t.lexeme) t.rest).map
          (⟨t.kind, offset + byteLength (cs.takeWhile isBlank)⟩ :: ·) := by
  rw [tokensFrom]
  split
  · next heq => rw [h] at heq; cases heq
  · next d more heq =>
      rw [h] at heq
      cases heq
      dsimp only
      split
      · next heq => rw [heq]; rfl
      · next t heq =>
        rw [heq, ok_bind]
        rfl

theorem tokensFrom_cut {offset : Nat} {c : Char} {cs : List Char} {t : Cut} (hc : isBlank c = false)
    (h : cut offset c cs = .ok t) :
    tokensFrom offset (c :: cs) =
      (tokensFrom (offset + byteLength t.lexeme) t.rest).map (⟨t.kind, offset⟩ :: ·) := by
  have hdrop : (c :: cs).dropWhile isBlank = c :: cs := by simp [hc]
  have htake : (c :: cs).takeWhile isBlank = [] := by simp [hc]
  rw [tokensFrom_token hdrop, htake, byteLength_nil, Nat.add_zero, h, ok_bind]

theorem tokensFrom_blank {c : Char} (h : isBlank c = true) (offset : Nat) (cs : List Char) :
    tokensFrom offset (c :: cs) = tokensFrom (offset + c.utf8Size) cs := by
  have hdrop : (c :: cs).dropWhile isBlank = cs.dropWhile isBlank := List.dropWhile_cons_of_pos h
  have hstart : offset + byteLength ((c :: cs).takeWhile isBlank) =
      offset + c.utf8Size + byteLength (cs.takeWhile isBlank) := by
    rw [List.takeWhile_cons_of_pos h, byteLength_cons, Nat.add_assoc]
  cases hrest : cs.dropWhile isBlank with
  | nil => rw [tokensFrom_blanks hrest, tokensFrom_blanks (hdrop.trans hrest)]
  | cons d more => rw [tokensFrom_token hrest, tokensFrom_token (hdrop.trans hrest), hstart]

/-- Wherever the text stands in a source, it begins with tokens of these kinds, and `rest` is left. -/
def Begins (cs : List Char) (kinds : List Kind) (rest : List Char) : Prop :=
  ∀ offset, ∃ tokens place, tokens.map Token.kind = kinds ∧
    tokensFrom offset cs = (tokensFrom place rest).map (tokens ++ ·)

theorem Begins.refl (cs : List Char) : Begins cs [] cs := by
  intro offset
  refine ⟨[], offset, rfl, ?_⟩
  cases tokensFrom offset cs <;> rfl

theorem Begins.trans {cs mid rest : List Char} {kinds kinds' : List Kind} (h : Begins cs kinds mid)
    (h' : Begins mid kinds' rest) : Begins cs (kinds ++ kinds') rest := by
  intro offset
  obtain ⟨tokens, place, hkinds, hcs⟩ := h offset
  obtain ⟨tokens', place', hkinds', hmid⟩ := h' place
  refine ⟨tokens ++ tokens', place', by rw [List.map_append, hkinds, hkinds'], ?_⟩
  rw [hcs, hmid]
  cases tokensFrom place' rest with
  | error e => rfl
  | ok rest => exact congrArg Except.ok (List.append_assoc ..).symm

theorem begins_blank {c : Char} (h : isBlank c = true) (cs : List Char) : Begins (c :: cs) [] cs := by
  intro offset
  obtain ⟨tokens, place, hkinds, hcs⟩ := Begins.refl cs (offset + c.utf8Size)
  exact ⟨tokens, place, hkinds, (tokensFrom_blank h offset cs).trans hcs⟩

theorem begins_spelling (kind : Kind) (hkind : kind.Writable) {rest : List Char}
    (hrest : kind.Ends rest) : Begins (kind.spelling ++ rest) [kind] rest := by
  intro offset
  obtain ⟨c, cs, hspelling, hblank, hcut⟩ := cut_spelling hkind hrest offset
  refine ⟨[⟨kind, offset⟩], offset + byteLength kind.spelling, rfl, ?_⟩
  have htokens := tokensFrom_cut hblank hcut
  rw [hspelling] at htokens ⊢
  exact htokens

/-- A source that consists of tokens of these kinds. -/
theorem tokenize_of_begins {cs : List Char} {kinds : List Kind} (h : Begins cs kinds []) :
    ∃ tokens, tokens.map Token.kind = kinds ∧ tokenize (String.ofList cs) = .ok tokens := by
  obtain ⟨tokens, place, hkinds, hcs⟩ := h 0
  refine ⟨tokens, hkinds, ?_⟩
  rw [tokenize, String.toList_ofList, hcs, tokensFrom_blanks rfl, Except.map, List.append_nil]

end StampedPrograms.Token
