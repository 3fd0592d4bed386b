import StampedPrograms.Expr.Lowering
import StampedPrograms.Proofs.Expr.Nesting
import StampedPrograms.Proofs.Expr.Nodes
import StampedPrograms.Proofs.Token.Spelling

/-!
The text of a tree without calls is a source again. It is cut into the tokens it was put together of,
and these derive the tree with its coalescings written out. So the text is read as this tree, unless it
is nested too deeply to be read at all.
-/

namespace StampedPrograms.Expr

open Token (Kind Begins IsNumber IsName)

/-- Neither a call nor a name or number other than sources have. -/
def Writable : Expr → Prop
  | .number text => IsNumber text.toList
  | .param name => IsName name.toList
  | .call _ _ => False
  | _ => True

mutual

/-- The tree with every coalescing written as a comparison with null and the two outcomes of it. -/
def desugar : Expr → Expr
  | .unary op operand => .unary op operand.desugar
  | .binary op left right => .binary op left.desugar right.desugar
  | .ternary cond yes no => .ternary cond.desugar yes.desugar no.desugar
  | .coalesce left right =>
      .ternary (.binary .ne left.desugar .null) left.desugar right.desugar
  | .call name args => .call name (desugarAll args)
  | e => e

def desugarAll : List Expr → List Expr
  | [] => []
  | e :: es => e.desugar :: desugarAll es

end

/-- The levels of nesting that reading the text of a tree without calls takes inside its expression. -/
def textNesting : Expr → Nat
  | .unary _ operand =>
      if operand.isUnary then operand.textNesting + 2 else operand.textNesting + 1
  | .binary _ left right => max left.textNesting (right.textNesting + 1) + 1
  | .ternary cond yes no =>
      max cond.textNesting (max yes.textNesting no.textNesting + 1) + 1
  | .coalesce left right => max left.textNesting right.textNesting + 2
  | _ => 0

/-! ### Derivations of written operations -/

section Derivations

variable {c c₁ c₂ i : Nat} {ts ts₁ ts₂ : List Token} {e e₁ e₂ : Expr}

theorem exists_level (op : BinaryOp) : ∃ level ∈ Level.precedence, (op.symbol, op) ∈ level.operators := by
  cases op <;> decide

/-- Two operands with an operator between them are a chain of the level of the operator. -/
theorem derives_binary (op : BinaryOp) (h₁ : Derives .unary c₁ ts₁ e₁) (h₂ : Derives .unary c₂ ts₂ e₂) :
    Derives (.chain Level.precedence) (max c₁ (c₂ + 1)) (ts₁ ++ ⟨.op op.symbol, i⟩ :: ts₂) (.binary op e₁ e₂) := by
  obtain ⟨level, hmem, hop⟩ := exists_level op
  obtain ⟨looser, tighter, hall⟩ := List.append_of_mem hmem
  rw [hall]
  have hlink := Derives.link (i := i) (.operand (h₁.chain_of_unary tighter)) hop (h₂.chain_of_unary tighter)
  exact (Derives.chain hlink).looser looser

end Derivations

/-! ### Texts of operations -/

/-- A blank or a closing parenthesis follows, or nothing. -/
def Apart (rest : List Char) : Prop :=
  ∀ c ∈ rest.head?, c = ' ' ∨ c = ')'

theorem apart_blank (rest : List Char) : Apart (' ' :: rest) := by
  rintro c ⟨⟩
  exact .inl rfl

theorem apart_paren (rest : List Char) : Apart (')' :: rest) := by
  rintro c ⟨⟩
  exact .inr rfl

theorem not_continues_op {c : Char} (hc : ∀ pair ∈ Token.pairOps, pair.toList.getLast? ≠ some c)
    (symbol : String) : (Kind.op symbol).continues c = false := by
  apply Decidable.byContradiction
  intro h
  have hmem : String.ofList (symbol.toList ++ [c]) ∈ Token.pairOps := by
    simpa [Kind.continues] using h
  have hlast := hc _ hmem
  rw [String.toList_ofList, List.getLast?_concat] at hlast
  exact hlast rfl

/-- No token goes on with a blank or a closing parenthesis. -/
theorem Apart.ends {rest : List Char} (h : Apart rest) (kind : Kind) : kind.Ends rest := by
  intro c hc
  rcases h c hc with rfl | rfl
  · cases kind with
    | op symbol => exact not_continues_op (by decide) symbol
    | _ => rfl
  · cases kind with
    | op symbol => exact not_continues_op (by decide) symbol
    | _ => rfl

theorem begins_apart (kind : Kind) (hkind : kind.Writable) {rest : List Char} (hrest : Apart rest) :
    Begins (kind.spelling ++ rest) [kind] rest :=
  Token.begins_spelling kind hkind (hrest.ends kind)

/-- A token between two blanks. -/
theorem begins_joint (kind : Kind) (hkind : kind.Writable) (rest : List Char) :
    Begins (' ' :: (kind.spelling ++ ' ' :: rest)) [kind] rest :=
  (Token.begins_blank rfl _).trans
    ((begins_apart kind hkind (apart_blank rest)).trans (Token.begins_blank rfl rest))

theorem writable_unary (op : UnaryOp) : (Kind.op op.symbol).Writable := by
  show op.symbol ∈ Token.pairOps ++ Token.singleOps
  cases op <;> decide

theorem writable_binary (op : BinaryOp) : (Kind.op op.symbol).Writable := by
  show op.symbol ∈ Token.pairOps ++ Token.singleOps
  cases op <;> decide

/-- A prefix operator is the first character of no longer operator but an inequality. -/
theorem ends_unary (op : UnaryOp) {rest : List Char} (h : ∀ c ∈ rest.head?, c ≠ '=') :
    (Kind.op op.symbol).Ends rest := by
  intro c hc
  have hne := h c hc
  cases op <;> simp [Kind.continues, Token.pairOps, UnaryOp.symbol, ← String.toList_inj, hne]

/-- A text in parentheses, whatever follows them. -/
theorem begins_parens {cs rest : List Char} {kinds : List Kind} (h : Begins cs kinds (')' :: rest)) :
    Begins ('(' :: cs) (.leftParen :: (kinds ++ [.rightParen])) rest := by
  have hopen : Begins ('(' :: cs) [.leftParen] cs :=
    Token.begins_spelling .leftParen trivial fun _ _ => rfl
  have hclose : Begins (')' :: rest) [.rightParen] rest :=
    Token.begins_spelling .rightParen trivial fun _ _ => rfl
  exact hopen.trans (h.trans hclose)

/-- Wherever the text stands apart, it is cut into tokens that derive the tree. -/
def Written (symbol : Symbol) (text : List Char) (cost : Nat) (tree : symbol.Tree) : Prop :=
  ∃ kinds, (∀ rest, Apart rest → Begins (text ++ rest) kinds rest) ∧
    ∀ ts, ts.map Token.kind = kinds → Derives symbol cost ts tree

/-- An operand that may stand after a prefix operator, which it does not make an inequality. -/
structure WrittenOperand (text : List Char) (cost : Nat) (e : Expr) : Prop where
  head : ∃ c cs, text = c :: cs ∧ c ≠ '='
  written : Written .unary text cost e

section Texts

variable {text left right cond yes no : List Char} {c c₁ c₂ : Nat} {e e₁ e₂ : Expr}

theorem written_chain (h : Written .unary text c e) : Written (.chain Level.precedence) text c e := by
  obtain ⟨kinds, hbegins, hderives⟩ := h
  exact ⟨kinds, hbegins, fun ts hts => (hderives ts hts).chain_of_unary Level.precedence⟩

theorem written_expression (h : Written (.chain Level.precedence) text c e) :
    Written .expression text (c + 1) e := by
  obtain ⟨kinds, hbegins, hderives⟩ := h
  exact ⟨kinds, hbegins, fun ts hts => .expression (hderives ts hts)⟩

/-- Between operator and operands stand blanks, so the operator is no longer than it was written. -/
theorem written_binary (op : BinaryOp) (h₁ : Written .unary left c₁ e₁)
    (h₂ : Written .unary right c₂ e₂) :
    Written (.chain Level.precedence) (left ++ ' ' :: op.symbol.toList ++ ' ' :: right) (max c₁ (c₂ + 1))
      (.binary op e₁ e₂) := by
  obtain ⟨kinds₁, hbegins₁, hderives₁⟩ := h₁
  obtain ⟨kinds₂, hbegins₂, hderives₂⟩ := h₂
  refine ⟨kinds₁ ++ .op op.symbol :: kinds₂, fun rest hrest => ?_, fun ts hts => ?_⟩
  · have hbody := (hbegins₁ _ (apart_blank _)).trans
      ((begins_joint _ (writable_binary op) _).trans (hbegins₂ rest hrest))
    simpa [Kind.spelling, Kind.shown] using hbody
  · obtain ⟨ts₁, _, rfl, hts₁, hts⟩ := List.map_eq_append_iff.mp hts
    obtain ⟨⟨_, i⟩, ts₂, rfl, rfl, hts₂⟩ := List.map_eq_cons_iff.mp hts
    exact derives_binary op (hderives₁ ts₁ hts₁) (hderives₂ ts₂ hts₂)

theorem written_ternary (h : Written (.chain Level.precedence) cond c e) (h₁ : Written .expression yes c₁ e₁)
    (h₂ : Written .expression no c₂ e₂) :
    Written .expression (cond ++ " ? ".toList ++ yes ++ " : ".toList ++ no) (max c (max c₁ c₂) + 1)
      (.ternary e e₁ e₂) := by
  obtain ⟨kinds, hbegins, hderives⟩ := h
  obtain ⟨kinds₁, hbegins₁, hderives₁⟩ := h₁
  obtain ⟨kinds₂, hbegins₂, hderives₂⟩ := h₂
  refine ⟨kinds ++ .question :: (kinds₁ ++ .colon :: kinds₂), fun rest hrest => ?_, fun ts hts => ?_⟩
  · have houtcomes := (hbegins₁ _ (apart_blank _)).trans
      ((begins_joint .colon trivial _).trans (hbegins₂ rest hrest))
    have hbody := (hbegins _ (apart_blank _)).trans
      ((begins_joint .question trivial _).trans houtcomes)
    simpa [Kind.spelling, Kind.shown] using hbody
  · obtain ⟨ts₀, _, rfl, hts₀, hquestion⟩ := List.map_eq_append_iff.mp hts
    obtain ⟨⟨_, i⟩, _, rfl, rfl, houtcomes⟩ := List.map_eq_cons_iff.mp hquestion
    obtain ⟨ts₁, _, rfl, hts₁, hcolon⟩ := List.map_eq_append_iff.mp houtcomes
    obtain ⟨⟨_, j⟩, ts₂, rfl, rfl, hts₂⟩ := List.map_eq_cons_iff.mp hcolon
    exact .conditional (hderives ts₀ hts₀) (hderives₁ ts₁ hts₁) (hderives₂ ts₂ hts₂)

theorem writtenOperand_token (kind : Kind) (hkind : kind.Writable)
    (hhead : ∃ c cs, kind.spelling = c :: cs ∧ c ≠ '=')
    (h : ∀ i, Derives .primary 0 [⟨kind, i⟩] e) : WrittenOperand kind.spelling 0 e := by
  refine ⟨hhead, [kind], fun rest hrest => begins_apart kind hkind hrest, fun ts hts => ?_⟩
  obtain ⟨⟨_, i⟩, rfl, rfl⟩ := List.map_eq_singleton_iff.mp hts
  exact .unprefixed (.plain (h i))

/-- A word that stands for a tree. -/
theorem writtenOperand_word {word : String} (hword : IsName word.toList)
    (h : ∀ i, Derives .primary 0 [⟨.ident word, i⟩] e) : WrittenOperand word.toList 0 e := by
  obtain ⟨c, cs, hcs, hstart, -⟩ := id hword
  refine writtenOperand_token (.ident word) hword ⟨c, cs, hcs, ?_⟩ h
  rintro rfl
  cases hstart

theorem writtenOperand_number {number : String} (h : IsNumber number.toList) :
    WrittenOperand number.toList 0 (.number number) := by
  refine writtenOperand_token (.number number) h ?_ fun i => .number
  obtain ⟨c, cs, hcs⟩ := List.exists_cons_of_ne_nil h.ne_nil
  refine ⟨c, cs, hcs, ?_⟩
  rintro rfl
  cases h.isNumberPart '=' (hcs ▸ List.mem_cons_self ..)

theorem writtenOperand_string (text : String) : WrittenOperand (Quoted.script text) 0 (.string text) :=
  writtenOperand_token (.string text) trivial ⟨_, _, rfl, by decide⟩ fun _ => .string

theorem isName_null : IsName "null".toList :=
  Token.isName_of_all rfl rfl

theorem isName_params : IsName "params".toList :=
  Token.isName_of_all rfl rfl

theorem writtenOperand_param {name : String} (hname : IsName name.toList) :
    WrittenOperand ("params.".toList ++ name.toList) 0 (.param name) := by
  refine ⟨⟨_, _, rfl, by decide⟩, [.ident "params", .dot, .ident name], fun rest hrest => ?_, ?_⟩
  · obtain ⟨d, ds, hd, hstart, -⟩ := id hname
    have hdot : Kind.dot.Ends (name.toList ++ rest) := by
      rw [hd]
      rintro c ⟨⟩
      exact Token.isDigit_of_isNameStart hstart
    have hword : (Kind.ident "params").Ends ('.' :: (name.toList ++ rest)) := by
      rintro c ⟨⟩
      rfl
    have hlast := (Token.begins_spelling .dot trivial hdot).trans
      (begins_apart (.ident name) hname hrest)
    exact (Token.begins_spelling (.ident "params") isName_params hword).trans hlast
  · intro ts hts
    simp only [List.map_eq_cons_iff, List.map_eq_nil_iff] at hts
    obtain ⟨⟨_, i⟩, _, rfl, rfl, ⟨_, j⟩, _, rfl, rfl, ⟨_, k⟩, _, rfl, rfl, rfl⟩ := hts
    exact .unprefixed (.plain .param)

/-- A prefix operator in front of an operand that does not make it an inequality. -/
theorem writtenOperand_prefixed (op : UnaryOp) (h : WrittenOperand text c e) :
    WrittenOperand (op.symbol.toList ++ text) (c + 1) (.unary op e) := by
  obtain ⟨⟨d, ds, rfl, hd⟩, kinds, hbegins, hderives⟩ := h
  refine ⟨?_, .op op.symbol :: kinds, fun rest hrest => ?_, fun ts hts => ?_⟩
  · cases op <;> exact ⟨_, _, rfl, by decide⟩
  · have hends : (Kind.op op.symbol).Ends (d :: ds ++ rest) := ends_unary op (by rintro c ⟨⟩; exact hd)
    rw [List.append_assoc]
    exact (Token.begins_spelling _ (writable_unary op) hends).trans (hbegins rest hrest)
  · obtain ⟨⟨_, i⟩, operand, rfl, rfl, hoperand⟩ := List.map_eq_cons_iff.mp hts
    exact .prefixed (hderives operand hoperand)

/-- In parentheses every expression is an operand. -/
theorem writtenOperand_parens (h : Written .expression text c e) :
    WrittenOperand ('(' :: text ++ [')']) c e := by
  obtain ⟨kinds, hbegins, hderives⟩ := h
  refine ⟨⟨_, _, rfl, by decide⟩, .leftParen :: (kinds ++ [.rightParen]), fun rest hrest => ?_,
    fun ts hts => ?_⟩
  · simpa using begins_parens (hbegins (')' :: rest) (apart_paren rest))
  · obtain ⟨⟨_, i⟩, _, rfl, rfl, hparens⟩ := List.map_eq_cons_iff.mp hts
    obtain ⟨inner, _, rfl, hinner, hclose⟩ := List.map_eq_append_iff.mp hparens
    obtain ⟨⟨_, j⟩, rfl, rfl⟩ := List.map_eq_singleton_iff.mp hclose
    exact .unprefixed (.plain (.group (hderives inner hinner)))

end Texts

/-! ### Trees -/

theorem writtenOperand_of_lower {e : Expr} (he : Everywhere Writable e) {text : List Char}
    (h : lower e = .ok text) : WrittenOperand text e.textNesting e.desugar := by
  induction he generalizing text with
  | @node e here below ih =>
  cases e with
  | number number =>
      cases h
      exact writtenOperand_number here
  | string literal =>
      cases h
      exact writtenOperand_string literal
  | bool b =>
      cases h
      cases b with
      | true => exact writtenOperand_word (Token.isName_of_all rfl rfl) fun _ => .true
      | false => exact writtenOperand_word (Token.isName_of_all rfl rfl) fun _ => .false
  | null =>
      cases h
      exact writtenOperand_word isName_null fun _ => .null
  | score =>
      cases h
      exact writtenOperand_word (Token.isName_of_all rfl rfl) fun _ => .score
  | param name =>
      cases h
      exact writtenOperand_param here
  | unary op operand =>
      simp only [lower, bind_eq_ok] at h
      obtain ⟨inner, hinner, h⟩ := h
      cases h
      have hoperand := ih operand (by simp [children]) hinner
      rw [textNesting, desugar]
      split
      · have hchain := written_chain hoperand.written
        exact writtenOperand_prefixed op (writtenOperand_parens (written_expression hchain))
      · exact writtenOperand_prefixed op hoperand
  | binary op left right =>
      simp only [lower, bind_eq_ok] at h
      obtain ⟨_, hleft, _, hright, h⟩ := h
      cases h
      replace hleft := (ih left (by simp [children]) hleft).written
      replace hright := (ih right (by simp [children]) hright).written
      have hbody := written_expression (written_binary op hleft hright)
      simpa [textNesting, desugar] using writtenOperand_parens hbody
  | ternary cond yes no =>
      simp only [lower, bind_eq_ok] at h
      obtain ⟨_, hcond, _, hyes, _, hno, h⟩ := h
      cases h
      replace hcond := written_chain (ih cond (by simp [children]) hcond).written
      replace hyes := written_chain (ih yes (by simp [children]) hyes).written
      replace hno := written_chain (ih no (by simp [children]) hno).written
      have hbody := written_ternary hcond (written_expression hyes) (written_expression hno)
      simpa [textNesting, desugar] using writtenOperand_parens hbody
  | coalesce left right =>
      simp only [lower, bind_eq_ok] at h
      obtain ⟨_, hleft, h⟩ := h
      split at h
      · cases h
      simp only [bind_eq_ok] at h
      obtain ⟨_, hright, h⟩ := h
      cases h
      replace hleft := (ih left (by simp [children]) hleft).written
      replace hright := written_chain (ih right (by simp [children]) hright).written
      have hcond := written_binary .ne hleft (writtenOperand_word isName_null fun _ => .null).written
      have hbody := written_ternary hcond (written_expression (written_chain hleft))
        (written_expression hright)
      have hcost : max (max left.textNesting (0 + 1)) (max (left.textNesting + 1) (right.textNesting + 1)) =
          max left.textNesting right.textNesting + 1 := by omega
      rw [hcost] at hbody
      simpa [textNesting, desugar, BinaryOp.symbol] using writtenOperand_parens hbody
  | call name args => exact here.elim

theorem tokenize_of_written {symbol : Symbol} {text : List Char} {cost : Nat} {tree : symbol.Tree}
    (h : Written symbol text cost tree) :
    ∃ ts, Token.tokenize (String.ofList text) = .ok ts ∧ Derives symbol cost ts tree := by
  obtain ⟨kinds, hbegins, hderives⟩ := h
  have hall := hbegins [] (by rintro c ⟨⟩)
  rw [List.append_nil] at hall
  obtain ⟨ts, hts, htokens⟩ := Token.tokenize_of_begins hall
  exact ⟨ts, htokens, hderives ts hts⟩

/-- The text of a tree without calls is read as the same tree with its coalescings written out, or is
refused for its nesting, according to the levels that the text takes. -/
theorem ofSource_lower {e : Expr} (he : Everywhere Writable e) {text : List Char}
    (h : lower e = .ok text) :
    e.textNesting < maxNesting ∧ ofSource (String.ofList text) = .ok e.desugar ∨
      maxNesting ≤ e.textNesting ∧
        ∃ token, ofSource (String.ofList text) = .error (.badSyntax (.nesting maxNesting) token) := by
  have hwritten := written_expression (written_chain (writtenOperand_of_lower he h).written)
  obtain ⟨ts, htokens, hderives⟩ := tokenize_of_written hwritten
  rw [ofSource, htokens, ok_bind]
  rcases ofTokens_of_derives hderives with ⟨hcost, hread⟩ | ⟨hcost, hrefused⟩
  · exact .inl ⟨hcost, hread⟩
  · exact .inr ⟨Nat.le_of_lt_succ hcost, hrefused⟩

/-- A double negation with an alternative that has a quote and a backslash in it. -/
theorem ofSource_lower_negations :
    let negations : Expr := .unary .neg (.unary .neg (.param "w"))
    ∃ text, Everywhere Writable (.coalesce negations (.string "it's \\")) ∧
      lower (.coalesce negations (.string "it's \\")) = .ok text ∧
      ofSource (String.ofList text) =
        .ok (.ternary (.binary .ne negations .null) negations (.string "it's \\")) := by
  intro negations
  have hparam : Everywhere Writable (.param "w") :=
    .node (Token.isName_of_all rfl rfl) (by simp [children])
  have hinner : Everywhere Writable (.unary .neg (.param "w")) :=
    .node trivial (by simpa [children] using hparam)
  have hnegations : Everywhere Writable negations :=
    .node trivial (by simpa [children, negations] using hinner)
  have hstring : Everywhere Writable (.string "it's \\") := .node trivial (by simp [children])
  have htree : Everywhere Writable (.coalesce negations (.string "it's \\")) :=
    .node trivial (by simpa [children] using ⟨hnegations, hstring⟩)
  obtain ⟨text, htext⟩ :
      ∃ text, lower (.coalesce negations (.string "it's \\")) = .ok text := ⟨_, rfl⟩
  refine ⟨text, htree, htext, ?_⟩
  rcases ofSource_lower htree htext with ⟨-, hread⟩ | ⟨hcost, -⟩
  · exact hread
  · exact absurd hcost (by decide)

end StampedPrograms.Expr
