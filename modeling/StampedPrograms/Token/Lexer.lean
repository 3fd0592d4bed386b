import StampedPrograms.Error
import StampedPrograms.Token.Basic
import StampedPrograms.Text.Blank
import StampedPrograms.Text.Size

/-!
Cutting a source into tokens. `cut` takes one token off the front of a text and says which
characters it took; nothing between two tokens but white space is left out (`cut_takes`).
-/

namespace StampedPrograms.Token

/-- A token cut off a text: its kind, its characters, and what follows them. -/
structure Cut where
  kind : Kind
  lexeme : List Char
  rest : List Char

def isNameStart (c : Char) : Bool :=
  c.isAlpha || c == '_'

def isNamePart (c : Char) : Bool :=
  c.isAlphanum || c == '_'

/-- Operators of two characters, which are tried before those of one. -/
def pairOps : List String :=
  ["==", "!=", "<=", ">=", "||", "&&", "??"]

def singleOps : List String :=
  ["+", "-", "*", "/", "%", "<", ">", "&", "|", "!"]

/-- A name after what comes before it in the token. -/
def cutName (kind : String → Kind) (before cs : List Char) : Cut :=
  let name := cs.takeWhile isNamePart
  ⟨kind (String.ofList name), before ++ name, cs.dropWhile isNamePart⟩

/-- Digits, and a point with digits after it. -/
def cutNumber (cs : List Char) : Cut :=
  let whole := cs.takeWhile Char.isDigit
  match cs.dropWhile Char.isDigit with
  | '.' :: d :: more =>
      if d.isDigit then
        let lexeme := whole ++ '.' :: (d :: more).takeWhile Char.isDigit
        ⟨.number (String.ofList lexeme), lexeme, (d :: more).dropWhile Char.isDigit⟩
      else ⟨.number (String.ofList whole), whole, '.' :: d :: more⟩
  | rest => ⟨.number (String.ofList whole), whole, rest⟩

/-- The character an escape stands for. -/
def unescape? (c : Char) : Option Char :=
  if c = '\\' ∨ c = '\'' ∨ c = '"' then some c
  else if c = 'n' then some '\n'
  else if c = 'r' then some '\r'
  else if c = 't' then some '\t'
  else none

/-- How a literal goes on after its opening quote: up to the closing quote, without one, or up to an
escape that stands for nothing, of which the second character may be missing. -/
inductive LiteralBody where
  | closed (text lexeme rest : List Char)
  | unterminated
  | badEscape (lexeme : List Char) (escaped : Option Char)

/-- The body of a literal with one more character in front, spelled like this. -/
def LiteralBody.prepend (c : Char) (spelling : List Char) : LiteralBody → LiteralBody
  | .closed text lexeme rest => .closed (c :: text) (spelling ++ lexeme) rest
  | .unterminated => .unterminated
  | .badEscape lexeme escaped => .badEscape (spelling ++ lexeme) escaped

def literalBody (quote : Char) : List Char → LiteralBody
  | [] => .unterminated
  | ['\\'] => .badEscape ['\\'] none
  | '\\' :: c :: rest =>
      match unescape? c with
      | some d => (literalBody quote rest).prepend d ['\\', c]
      | none => .badEscape ['\\', c] (some c)
  | c :: rest =>
      if c = quote then .closed [] [c] rest else (literalBody quote rest).prepend c [c]

/-- A literal after its opening quote at the given offset. -/
def cutString (offset : Nat) (quote : Char) (cs : List Char) : Except Error Cut :=
  match literalBody quote cs with
  | .closed text lexeme rest => .ok ⟨.string (String.ofList text), quote :: lexeme, rest⟩
  | .unterminated =>
      .error (.badSyntax (.unterminatedString offset) (some (String.ofList (quote :: cs))))
  | .badEscape lexeme escaped =>
      .error (.badSyntax (.invalidEscape (offset + byteLength (quote :: lexeme)))
        (escaped.map fun c => String.ofList ['\\', c]))

/-- A call name after its sign at the given offset. -/
def cutCall (offset : Nat) (cs : List Char) : Except Error Cut :=
  if (cs.head?.map isNameStart).getD false then .ok (cutName .call ['@'] cs)
  else .error (.badSyntax (.missingCallName offset) (some "@"))

def cutOperator (offset : Nat) (c : Char) (rest : List Char) : Except Error Cut :=
  let pair := (c :: rest).take 2
  if pairOps.contains (String.ofList pair) then
    .ok ⟨.op (String.ofList pair), pair, (c :: rest).drop 2⟩
  else if c = '?' then .ok ⟨.question, [c], rest⟩
  else if singleOps.contains (String.ofList [c]) then .ok ⟨.op (String.ofList [c]), [c], rest⟩
  else .error (.badSyntax (.unexpectedCharacter offset) (some (String.ofList [c])))

/-- The token at the front of a text that starts with `c` at the given offset. -/
def cut (offset : Nat) (c : Char) (rest : List Char) : Except Error Cut :=
  if c = '(' then .ok ⟨.leftParen, [c], rest⟩
  else if c = ')' then .ok ⟨.rightParen, [c], rest⟩
  else if c = ',' then .ok ⟨.comma, [c], rest⟩
  else if c = ':' then .ok ⟨.colon, [c], rest⟩
  else if c = '\'' ∨ c = '"' then cutString offset c rest
  else if c = '@' then cutCall offset rest
  else if c = '.' then
    if (rest.head?.map Char.isDigit).getD false then .ok (cutNumber (c :: rest))
    else .ok ⟨.dot, [c], rest⟩
  else if c.isDigit then .ok (cutNumber (c :: rest))
  else if isNameStart c then .ok (cutName .ident [] (c :: rest))
  else cutOperator offset c rest

/-- The cut takes at least one character off this text and loses nothing of it. -/
def Cut.Takes (t : Cut) (cs : List Char) : Prop :=
  t.lexeme ++ t.rest = cs ∧ t.lexeme ≠ []

theorem isNamePart_of_isNameStart {c : Char} (h : isNameStart c = true) : isNamePart c = true := by
  simp only [isNameStart, isNamePart, Char.isAlphanum, Bool.or_eq_true] at h ⊢
  exact h.imp_left Or.inl

theorem cutName_takes {kind : String → Kind} {before cs : List Char}
    (h : before ++ cs.takeWhile isNamePart ≠ []) : (cutName kind before cs).Takes (before ++ cs) :=
  ⟨by simp [cutName, List.takeWhile_append_dropWhile], h⟩

theorem cutNumber_append (cs : List Char) :
    (cutNumber cs).lexeme ++ (cutNumber cs).rest = cs := by
  have hparts := List.takeWhile_append_dropWhile (p := Char.isDigit) (l := cs)
  unfold cutNumber
  split
  · next d more h =>
      split
      · simp only [List.append_assoc, List.cons_append, List.takeWhile_append_dropWhile]
        rw [← h, hparts]
      · rw [← h, hparts]
  · exact hparts

theorem cutNumber_takes_of_isDigit {c : Char} {rest : List Char} (h : c.isDigit = true) :
    (cutNumber (c :: rest)).Takes (c :: rest) := by
  refine ⟨cutNumber_append _, ?_⟩
  unfold cutNumber
  split
  · split <;> simp [h]
  · simp [h]

theorem cutNumber_takes_of_point {rest : List Char}
    (h : (rest.head?.map Char.isDigit).getD false = true) :
    (cutNumber ('.' :: rest)).Takes ('.' :: rest) := by
  refine ⟨cutNumber_append _, ?_⟩
  cases rest with
  | nil => simp at h
  | cons d more =>
      simp only [List.head?_cons, Option.map_some, Option.getD_some] at h
      simp [cutNumber, h]

theorem literalBody_append {quote : Char} {cs text lexeme rest : List Char}
    (h : literalBody quote cs = .closed text lexeme rest) : lexeme ++ rest = cs := by
  induction cs using literalBody.induct quote generalizing text lexeme with
  | case1 => simp [literalBody] at h
  | case2 => simp [literalBody] at h
  | case3 c tail d hd ih =>
      simp only [literalBody, hd] at h
      cases hb : literalBody quote tail <;> simp [hb, LiteralBody.prepend] at h
      obtain ⟨-, rfl, rfl⟩ := h
      simp [ih hb]
  | case4 c tail hd => simp [literalBody, hd] at h
  | case5 tail h1 h2 =>
      simp only [literalBody, if_true] at h
      injection h with _ hl hr
      subst hl hr
      rfl
  | case6 c tail h1 h2 hq ih =>
      simp only [literalBody, hq, if_false] at h
      cases hb : literalBody quote tail <;> simp [hb, LiteralBody.prepend] at h
      obtain ⟨-, rfl, rfl⟩ := h
      simp [ih hb]

theorem cutString_takes {offset : Nat} {quote : Char} {cs : List Char} {t : Cut}
    (h : cutString offset quote cs = .ok t) : t.Takes (quote :: cs) := by
  unfold cutString at h
  split at h
  · next hb =>
      injection h with h
      subst h
      exact ⟨congrArg (quote :: ·) (literalBody_append hb), by simp⟩
  · cases h
  · cases h

theorem cutCall_takes {offset : Nat} {cs : List Char} {t : Cut}
    (h : cutCall offset cs = .ok t) : t.Takes ('@' :: cs) := by
  unfold cutCall at h
  split at h
  · injection h with h
    subst h
    exact cutName_takes (by simp)
  · cases h

theorem cutOperator_takes {offset : Nat} {c : Char} {rest : List Char} {t : Cut}
    (h : cutOperator offset c rest = .ok t) : t.Takes (c :: rest) := by
  unfold cutOperator at h
  dsimp only at h
  split at h
  · injection h with h
    subst h
    exact ⟨List.take_append_drop 2 _, by simp⟩
  · split at h
    · injection h with h
      subst h
      exact ⟨rfl, by simp⟩
    · split at h
      · injection h with h
        subst h
        exact ⟨rfl, by simp⟩
      · cases h

/-- Which part of the lexer cuts off the token that starts with a character. -/
inductive Cuts (offset : Nat) : Char → List Char → Cut → Prop where
  | leftParen {rest : List Char} : Cuts offset '(' rest ⟨.leftParen, ['('], rest⟩
  | rightParen {rest : List Char} : Cuts offset ')' rest ⟨.rightParen, [')'], rest⟩
  | comma {rest : List Char} : Cuts offset ',' rest ⟨.comma, [','], rest⟩
  | colon {rest : List Char} : Cuts offset ':' rest ⟨.colon, [':'], rest⟩
  | dot {rest : List Char} : Cuts offset '.' rest ⟨.dot, ['.'], rest⟩
  | string {quote : Char} {rest : List Char} {t : Cut} (hquoted : quote = '\'' ∨ quote = '"')
      (h : cutString offset quote rest = .ok t) : Cuts offset quote rest t
  | call {rest : List Char} {t : Cut} (h : cutCall offset rest = .ok t) : Cuts offset '@' rest t
  | fraction {rest : List Char} (hdigit : (rest.head?.map Char.isDigit).getD false = true) :
      Cuts offset '.' rest (cutNumber ('.' :: rest))
  | number {c : Char} {rest : List Char} (hdigit : c.isDigit = true) :
      Cuts offset c rest (cutNumber (c :: rest))
  | name {c : Char} {rest : List Char} (hstart : isNameStart c = true) :
      Cuts offset c rest (cutName .ident [] (c :: rest))
  | operator {c : Char} {rest : List Char} {t : Cut} (h : cutOperator offset c rest = .ok t) :
      Cuts offset c rest t

theorem cuts_of_cut {offset : Nat} {c : Char} {rest : List Char} {t : Cut}
    (h : cut offset c rest = .ok t) : Cuts offset c rest t := by
  rw [cut] at h
  by_cases hleft : c = '('
  · rw [if_pos hleft] at h
    cases h
    exact hleft ▸ .leftParen
  rw [if_neg hleft] at h
  by_cases hright : c = ')'
  · rw [if_pos hright] at h
    cases h
    exact hright ▸ .rightParen
  rw [if_neg hright] at h
  by_cases hcomma : c = ','
  · rw [if_pos hcomma] at h
    cases h
    exact hcomma ▸ .comma
  rw [if_neg hcomma] at h
  by_cases hcolon : c = ':'
  · rw [if_pos hcolon] at h
    cases h
    exact hcolon ▸ .colon
  rw [if_neg hcolon] at h
  by_cases hquoted : c = '\'' ∨ c = '"'
  · rw [if_pos hquoted] at h
    exact .string hquoted h
  rw [if_neg hquoted] at h
  by_cases hsign : c = '@'
  · rw [if_pos hsign] at h
    exact hsign ▸ .call h
  rw [if_neg hsign] at h
  by_cases hpoint : c = '.'
  · rw [if_pos hpoint] at h
    subst hpoint
    by_cases hdigit : (rest.head?.map Char.isDigit).getD false = true
    · rw [if_pos hdigit] at h
      cases h
      exact .fraction hdigit
    · rw [if_neg hdigit] at h
      cases h
      exact .dot
  rw [if_neg hpoint] at h
  by_cases hdigit : c.isDigit = true
  · rw [if_pos hdigit] at h
    cases h
    exact .number hdigit
  rw [if_neg hdigit] at h
  by_cases hstart : isNameStart c = true
  · rw [if_pos hstart] at h
    cases h
    exact .name hstart
  rw [if_neg hstart] at h
  exact .operator h

theorem cut_takes {offset : Nat} {c : Char} {rest : List Char} {t : Cut}
    (h : cut offset c rest = .ok t) : t.Takes (c :: rest) := by
  cases cuts_of_cut h with
  | leftParen | rightParen | comma | colon | dot => exact ⟨rfl, by simp⟩
  | string _ h => exact cutString_takes h
  | call h => exact cutCall_takes h
  | fraction hdigit => exact cutNumber_takes_of_point hdigit
  | number hdigit => exact cutNumber_takes_of_isDigit hdigit
  | name hstart => exact cutName_takes (by simp [isNamePart_of_isNameStart hstart])
  | operator h => exact cutOperator_takes h

theorem Cut.Takes.rest_length {t : Cut} {cs : List Char} (h : t.Takes cs) :
    t.rest.length < cs.length := by
  have htaken := List.length_pos_iff.mpr h.2
  rw [← h.1, List.length_append]
  omega

/-- The tokens of a text whose first byte has this offset in the source. -/
def tokensFrom (offset : Nat) (cs : List Char) : Except Error (List Token) :=
  match _htext : cs.dropWhile isBlank with
  | [] => .ok []
  | c :: rest =>
      let start := offset + byteLength (cs.takeWhile isBlank)
      match _htaken : cut start c rest with
      | .error e => .error e
      | .ok t => do
          let tokens ← tokensFrom (start + byteLength t.lexeme) t.rest
          return ⟨t.kind, start⟩ :: tokens
termination_by cs.length
decreasing_by
  have hshorter := (cut_takes _htaken).rest_length
  have hblanks := (List.dropWhile_suffix (p := isBlank) (l := cs)).length_le
  rw [_htext] at hblanks
  omega

def tokenize (source : String) : Except Error (List Token) :=
  tokensFrom 0 source.toList

end StampedPrograms.Token
