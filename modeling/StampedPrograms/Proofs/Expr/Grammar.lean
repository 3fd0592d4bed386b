import StampedPrograms.Expr.Parser

/-!
The grammar of expressions, with its own table of the binary operators. A derivation relates tokens to
a tree and to the levels of nesting the tree costs: an expression costs one more than its parts, an
operand of a chain as many levels as there are operands before it, and a prefix operator one level.
-/

namespace StampedPrograms

namespace Level

/-- The ways to write the operators of a level. -/
def operators : Level → List (String × BinaryOp)
  | .disjunction => [("|", .or), ("||", .or)]
  | .conjunction => [("&", .and), ("&&", .and)]
  | .equality => [("==", .eq), ("!=", .ne)]
  | .relation => [("<", .lt), ("<=", .le), (">", .gt), (">=", .ge)]
  | .sum => [("+", .add), ("-", .sub)]
  | .product => [("*", .mul), ("/", .div), ("%", .rem)]

/-- The operators of a level bind tighter than those of the levels before it. -/
def precedence : List Level :=
  [.disjunction, .conjunction, .equality, .relation, .sum, .product]

/-- The parser goes through the levels in the order of the grammar. -/
theorem all_eq_precedence : all = precedence := rfl

/-- The parser takes the symbols for the operators that the grammar has. -/
theorem operator?_eq_some_iff {level : Level} {symbol : String} {op : BinaryOp} :
    level.operator? symbol = some op ↔ (symbol, op) ∈ level.operators := by
  cases level <;> grind [operator?, operators]

end Level

inductive Symbol where
  | expression
  | chain (levels : List Level)
  | links (level : Level) (levels : List Level) (count : Nat)
  | unary
  | suffixed
  | primary
  | arguments

/-- What the tokens of a symbol stand for. -/
abbrev Symbol.Tree : Symbol → Type
  | .arguments => List Expr
  | _ => Expr

/-- `Derives symbol cost tokens tree`: the tokens are derived from the symbol as this tree, at this
cost. Chains of the levels in a list have operators of the first level between chains of the others,
and `links` counts the operators that a chain has so far. -/
inductive Derives : (symbol : Symbol) → (cost : Nat) → List Token → symbol.Tree → Prop where
  | expression {c : Nat} {ts : List Token} {e : Expr} :
      Derives (.chain Level.precedence) c ts e → Derives .expression (c + 1) ts e
  | conditional {c c₁ c₂ i j : Nat} {ts ts₁ ts₂ : List Token} {cond yes no : Expr} :
      Derives (.chain Level.precedence) c ts cond → Derives .expression c₁ ts₁ yes →
      Derives .expression c₂ ts₂ no →
      Derives .expression (max c (max c₁ c₂) + 1)
        (ts ++ ⟨.question, i⟩ :: (ts₁ ++ ⟨.colon, j⟩ :: ts₂)) (.ternary cond yes no)
  | tightest {c : Nat} {ts : List Token} {e : Expr} :
      Derives .unary c ts e → Derives (.chain []) c ts e
  | chain {level : Level} {levels : List Level} {count c : Nat} {ts : List Token} {e : Expr} :
      Derives (.links level levels count) c ts e → Derives (.chain (level :: levels)) c ts e
  | operand {level : Level} {levels : List Level} {c : Nat} {ts : List Token} {e : Expr} :
      Derives (.chain levels) c ts e → Derives (.links level levels 0) c ts e
  | link {level : Level} {levels : List Level} {count c c' i : Nat} {ts ts' : List Token}
      {left right : Expr} {symbol : String} {op : BinaryOp} :
      Derives (.links level levels count) c ts left → (symbol, op) ∈ level.operators →
      Derives (.chain levels) c' ts' right →
      Derives (.links level levels (count + 1)) (max c (c' + (count + 1)))
        (ts ++ ⟨.op symbol, i⟩ :: ts') (.binary op left right)
  | unprefixed {c : Nat} {ts : List Token} {e : Expr} :
      Derives .suffixed c ts e → Derives .unary c ts e
  | prefixed {op : UnaryOp} {c i : Nat} {ts : List Token} {e : Expr} :
      Derives .unary c ts e → Derives .unary (c + 1) (⟨.op op.symbol, i⟩ :: ts) (.unary op e)
  | plain {c : Nat} {ts : List Token} {e : Expr} :
      Derives .primary c ts e → Derives .suffixed c ts e
  | coalesce {c c' i : Nat} {ts ts' : List Token} {left right : Expr} :
      Derives .primary c ts left → Derives .primary c' ts' right →
      Derives .suffixed (max c c') (ts ++ ⟨.op "??", i⟩ :: ts') (.coalesce left right)
  | number {text : String} {i : Nat} : Derives .primary 0 [⟨.number text, i⟩] (.number text)
  | string {text : String} {i : Nat} : Derives .primary 0 [⟨.string text, i⟩] (.string text)
  | score {i : Nat} : Derives .primary 0 [⟨.ident "_score", i⟩] .score
  | true {i : Nat} : Derives .primary 0 [⟨.ident "true", i⟩] (.bool true)
  | false {i : Nat} : Derives .primary 0 [⟨.ident "false", i⟩] (.bool false)
  | null {i : Nat} : Derives .primary 0 [⟨.ident "null", i⟩] .null
  | param {name : String} {i j k : Nat} :
      Derives .primary 0 [⟨.ident "params", i⟩, ⟨.dot, j⟩, ⟨.ident name, k⟩] (.param name)
  | group {c i j : Nat} {ts : List Token} {e : Expr} :
      Derives .expression c ts e → Derives .primary c (⟨.leftParen, i⟩ :: (ts ++ [⟨.rightParen, j⟩])) e
  | constant {name : String} {i j k : Nat} :
      Derives .primary 0 [⟨.call name, i⟩, ⟨.leftParen, j⟩, ⟨.rightParen, k⟩] (.call name [])
  | call {name : String} {c i j k : Nat} {ts : List Token} {args : List Expr} :
      Derives .arguments c ts args →
      Derives .primary c (⟨.call name, i⟩ :: ⟨.leftParen, j⟩ :: (ts ++ [⟨.rightParen, k⟩]))
        (.call name args)
  | last {c : Nat} {ts : List Token} {e : Expr} :
      Derives .expression c ts e → Derives .arguments c ts [e]
  | more {c c' i : Nat} {ts ts' : List Token} {e : Expr} {args : List Expr} :
      Derives .expression c ts e → Derives .arguments c' ts' args →
      Derives .arguments (max c c') (ts ++ ⟨.comma, i⟩ :: ts') (e :: args)

namespace Derives

theorem looser {c : Nat} {ts : List Token} {e : Expr} {tighter : List Level} (h : Derives (.chain tighter) c ts e)
    (levels : List Level) : Derives (.chain (levels ++ tighter)) c ts e := by
  induction levels with
  | nil => exact h
  | cons level levels ih => exact .chain (.operand ih)

/-- An operand is a chain of any levels. -/
theorem chain_of_unary {c : Nat} {ts : List Token} {e : Expr} (levels : List Level) (h : Derives .unary c ts e) :
    Derives (.chain levels) c ts e := by
  rw [← List.append_nil levels]
  exact (tightest h).looser levels

/-- A primary costs one level as an expression. -/
theorem of_primary {c : Nat} {ts : List Token} {e : Expr} (h : Derives .primary c ts e) :
    Derives .expression (c + 1) ts e :=
  .expression (.chain_of_unary Level.precedence (.unprefixed (.plain h)))

/-- No derivation is empty, and none begins with a closing parenthesis. -/
theorem starts {symbol : Symbol} {c : Nat} {ts : List Token} {tree : symbol.Tree}
    (h : Derives symbol c ts tree) :
    ∃ token rest, ts = token :: rest ∧ token.kind ≠ .rightParen := by
  induction h with
  | expression _ ih => exact ih
  | tightest _ ih => exact ih
  | chain _ ih => exact ih
  | operand _ ih => exact ih
  | unprefixed _ ih => exact ih
  | plain _ ih => exact ih
  | last _ ih => exact ih
  | conditional _ _ _ ih =>
      obtain ⟨token, rest, rfl, h⟩ := ih
      exact ⟨token, _, List.cons_append, h⟩
  | link _ _ _ ih =>
      obtain ⟨token, rest, rfl, h⟩ := ih
      exact ⟨token, _, List.cons_append, h⟩
  | coalesce _ _ ih =>
      obtain ⟨token, rest, rfl, h⟩ := ih
      exact ⟨token, _, List.cons_append, h⟩
  | more _ _ ih =>
      obtain ⟨token, rest, rfl, h⟩ := ih
      exact ⟨token, _, List.cons_append, h⟩
  | _ => exact ⟨_, _, rfl, by simp⟩

theorem primary_starts {c : Nat} {ts : List Token} {e : Expr} (h : Derives .primary c ts e) :
    ∃ token rest, ts = token :: rest ∧ ∀ symbol, token.kind ≠ .op symbol := by
  cases h <;> exact ⟨_, _, rfl, by simp⟩

theorem suffixed_starts {c : Nat} {ts : List Token} {e : Expr} (h : Derives .suffixed c ts e) :
    ∃ token rest, ts = token :: rest ∧ ∀ symbol, token.kind ≠ .op symbol := by
  cases h with
  | plain h => exact h.primary_starts
  | coalesce h _ =>
      obtain ⟨token, rest, rfl, hkind⟩ := h.primary_starts
      exact ⟨token, _, List.cons_append, hkind⟩

/-- Tokens of the same kinds are put together around a token in the same way. -/
theorem split_kinds {ts us us' : List Token} {token : Token}
    (h : ts.map Token.kind = (us ++ token :: us').map Token.kind) :
    ∃ vs i vs', ts = vs ++ ⟨token.kind, i⟩ :: vs' ∧ vs.map Token.kind = us.map Token.kind ∧
      vs'.map Token.kind = us'.map Token.kind := by
  rw [List.map_append, List.map_cons] at h
  obtain ⟨vs, _, rfl, hvs, hrest⟩ := List.map_eq_append_iff.mp h
  obtain ⟨⟨_, i⟩, vs', rfl, rfl, hvs'⟩ := List.map_eq_cons_iff.mp hrest
  exact ⟨vs, i, vs', rfl, hvs, hvs'⟩

/-- What is derived is a matter of the kinds of the tokens, not of their places. -/
theorem of_kinds {symbol : Symbol} {c : Nat} {ts ts' : List Token} {tree : symbol.Tree}
    (h : Derives symbol c ts tree) (hkinds : ts'.map Token.kind = ts.map Token.kind) :
    Derives symbol c ts' tree := by
  induction h generalizing ts' with
  | expression _ ih => exact .expression (ih hkinds)
  | conditional _ _ _ ih ih₁ ih₂ =>
      obtain ⟨ts, i, _, rfl, hts, houtcomes⟩ := split_kinds hkinds
      obtain ⟨ts₁, j, ts₂, rfl, hts₁, hts₂⟩ := split_kinds houtcomes
      exact .conditional (ih hts) (ih₁ hts₁) (ih₂ hts₂)
  | tightest _ ih => exact .tightest (ih hkinds)
  | chain _ ih => exact .chain (ih hkinds)
  | operand _ ih => exact .operand (ih hkinds)
  | link _ hop _ ih ih' =>
      obtain ⟨ts, i, us, rfl, hts, hus⟩ := split_kinds hkinds
      exact .link (ih hts) hop (ih' hus)
  | unprefixed _ ih => exact .unprefixed (ih hkinds)
  | prefixed _ ih =>
      obtain ⟨⟨_, i⟩, ts, rfl, rfl, hts⟩ := List.map_eq_cons_iff.mp hkinds
      exact .prefixed (ih hts)
  | plain _ ih => exact .plain (ih hkinds)
  | coalesce _ _ ih ih' =>
      obtain ⟨ts, i, us, rfl, hts, hus⟩ := split_kinds hkinds
      exact .coalesce (ih hts) (ih' hus)
  | number =>
      obtain ⟨⟨_, i⟩, rfl, rfl⟩ := List.map_eq_singleton_iff.mp hkinds
      exact .number
  | string =>
      obtain ⟨⟨_, i⟩, rfl, rfl⟩ := List.map_eq_singleton_iff.mp hkinds
      exact .string
  | score =>
      obtain ⟨⟨_, i⟩, rfl, rfl⟩ := List.map_eq_singleton_iff.mp hkinds
      exact .score
  | true =>
      obtain ⟨⟨_, i⟩, rfl, rfl⟩ := List.map_eq_singleton_iff.mp hkinds
      exact .true
  | false =>
      obtain ⟨⟨_, i⟩, rfl, rfl⟩ := List.map_eq_singleton_iff.mp hkinds
      exact .false
  | null =>
      obtain ⟨⟨_, i⟩, rfl, rfl⟩ := List.map_eq_singleton_iff.mp hkinds
      exact .null
  | param =>
      simp only [List.map_cons, List.map_nil, List.map_eq_cons_iff, List.map_eq_nil_iff] at hkinds
      obtain ⟨⟨_, i⟩, _, rfl, rfl, ⟨_, j⟩, _, rfl, rfl, ⟨_, k⟩, _, rfl, rfl, rfl⟩ := hkinds
      exact .param
  | group _ ih =>
      obtain ⟨⟨_, i⟩, _, rfl, rfl, hrest⟩ := List.map_eq_cons_iff.mp hkinds
      obtain ⟨ts, j, us, rfl, hts, hus⟩ := split_kinds hrest
      cases List.map_eq_nil_iff.mp hus
      exact .group (ih hts)
  | constant =>
      simp only [List.map_cons, List.map_nil, List.map_eq_cons_iff, List.map_eq_nil_iff] at hkinds
      obtain ⟨⟨_, i⟩, _, rfl, rfl, ⟨_, j⟩, _, rfl, rfl, ⟨_, k⟩, _, rfl, rfl, rfl⟩ := hkinds
      exact .constant
  | call _ ih =>
      obtain ⟨⟨_, i⟩, _, rfl, rfl, hrest⟩ := List.map_eq_cons_iff.mp hkinds
      obtain ⟨⟨_, j⟩, _, rfl, rfl, hinner⟩ := List.map_eq_cons_iff.mp hrest
      obtain ⟨ts, k, us, rfl, hts, hus⟩ := split_kinds hinner
      cases List.map_eq_nil_iff.mp hus
      exact .call (ih hts)
  | last _ ih => exact .last (ih hkinds)
  | more _ _ ih ih' =>
      obtain ⟨ts, i, us, rfl, hts, hus⟩ := split_kinds hkinds
      exact .more (ih hts) (ih' hus)

end Derives

end StampedPrograms
