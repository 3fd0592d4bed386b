import StampedPrograms.Proofs.Expr.Parser

/-!
Tokens that have a derivation are refused for nothing but their nesting: with fewer levels left than the
derivation costs, the parser fails at the limit, whatever follows the tokens. Together with what it reads
within the levels this says which of the two happens to a derivation, by its cost alone.
-/

namespace StampedPrograms.Expr

/-- Fails at the limit of nesting. -/
def TooNested {α : Type} (x : Except Error α) : Prop :=
  ∃ token, x = .error (.badSyntax (.nesting maxNesting) token)

theorem TooNested.bind {α β : Type} {x : Except Error α} (h : TooNested x) (f : α → Except Error β) :
    TooNested (x >>= f) := by
  obtain ⟨token, rfl⟩ := h
  exact ⟨token, rfl⟩

theorem tooNested_zero (tokens : List Token) : TooNested (parseExpr 0 tokens) := by
  rw [parseExpr]
  exact ⟨_, rfl⟩

/-- The tokens of the symbol are refused for their nesting, in front of all other tokens. -/
def Refuses : (symbol : Symbol) → (left : Nat) → List Token → Prop
  | .expression, left, ts => ∀ rest, TooNested (parseExpr left (ts ++ rest))
  | .chain levels, left, ts => levels.Nodup → ∀ rest, TooNested (parseChain left levels (ts ++ rest))
  | .links level levels _, left, ts =>
      (level :: levels).Nodup → ∀ rest, TooNested (parseChain left (level :: levels) (ts ++ rest))
  | .unary, left, ts => ∀ rest, TooNested (parseUnary left (ts ++ rest))
  | .suffixed, left, ts => ∀ rest, TooNested (parsePostfix left (ts ++ rest))
  | .primary, left, ts => ∀ rest, TooNested (parsePrimary left (ts ++ rest))
  | .arguments, left, ts =>
      ∀ count rest, ts.length < count → TooNested (parseArgs (parseExpr left) count (ts ++ rest))

section Steps

variable {left i j : Nat} {tokens after rest : List Token} {e : Expr}

theorem tooNested_parseExpr (h : TooNested (parseChain left Level.all tokens)) :
    TooNested (parseExpr (left + 1) tokens) := by
  rw [parseExpr]
  exact h.bind _

theorem tooNested_first (h : parseChain left Level.all tokens = .ok (e, ⟨.question, i⟩ :: after))
    (hyes : TooNested (parseExpr left after)) : TooNested (parseExpr (left + 1) tokens) := by
  rw [parseExpr, h, ok_bind]
  dsimp only
  rw [next?_cons]
  exact hyes.bind _

theorem tooNested_second {e₁ : Expr} {after' : List Token}
    (h : parseChain left Level.all tokens = .ok (e, ⟨.question, i⟩ :: after))
    (hyes : parseExpr left after = .ok (e₁, ⟨.colon, j⟩ :: after'))
    (hno : TooNested (parseExpr left after')) : TooNested (parseExpr (left + 1) tokens) := by
  rw [parseExpr, h, ok_bind]
  dsimp only
  rw [next?_cons]
  dsimp only
  rw [hyes, ok_bind]
  dsimp only
  rw [expect_cons, ok_bind]
  exact hno.bind _

/-- A link takes a level, and its operand has one less. -/
theorem tooNested_link {level : Level} {levels : List Level} {symbol : String} {op : BinaryOp}
    (hop : (symbol, op) ∈ level.operators)
    (h : ∀ left', left = left' + 1 → TooNested (parseChain left' levels after)) :
    TooNested (parseLinks left level levels e (⟨.op symbol, i⟩ :: after)) := by
  rw [parseLinks, Level.link?, Level.operator?_eq_some_iff.mpr hop, Option.map_some]
  cases left with
  | zero => exact ⟨_, rfl⟩
  | succ left => exact (h left rfl).bind _

theorem tooNested_prefixed {op : UnaryOp}
    (h : ∀ left', left = left' + 1 → TooNested (parseUnary left' after)) :
    TooNested (parseUnary left (⟨.op op.symbol, i⟩ :: after)) := by
  have hop : prefixOp? (⟨.op op.symbol, i⟩ :: after) = some (op, after) := by
    cases op <;> rfl
  rw [parseUnary, hop]
  cases left with
  | zero => exact ⟨_, rfl⟩
  | succ left => exact (h left rfl).bind _

theorem tooNested_unprefixed {token : Token} (htoken : ∀ symbol, token.kind ≠ .op symbol)
    (h : TooNested (parsePostfix left (token :: after))) : TooNested (parseUnary left (token :: after)) := by
  obtain ⟨kind, i⟩ := token
  rw [parseUnary]
  cases kind with
  | op symbol => exact absurd rfl (htoken symbol)
  | _ => exact h

theorem tooNested_parsePostfix (h : TooNested (parsePrimary left tokens)) :
    TooNested (parsePostfix left tokens) := by
  rw [parsePostfix]
  exact h.bind _

theorem tooNested_alternative (h : parsePrimary left tokens = .ok (e, ⟨.op "??", i⟩ :: after))
    (h₁ : TooNested (parsePrimary left after)) : TooNested (parsePostfix left tokens) := by
  rw [parsePostfix, h, ok_bind]
  dsimp only
  rw [next?_cons]
  exact h₁.bind _

theorem tooNested_group (h : TooNested (parseExpr left after)) :
    TooNested (parsePrimary left (⟨.leftParen, i⟩ :: after)) := by
  rw [parsePrimary]
  exact h.bind _

theorem tooNested_call {name : String} (hafter : next? .rightParen after = none)
    (h : TooNested (parseArgs (parseExpr left) after.length after)) :
    TooNested (parsePrimary left (⟨.call name, i⟩ :: ⟨.leftParen, j⟩ :: after)) := by
  rw [parsePrimary]
  dsimp only
  rw [expect_cons, ok_bind, hafter]
  exact h.bind _

theorem tooNested_argument {count : Nat} (h : TooNested (parseExpr left tokens)) :
    TooNested (parseArgs (parseExpr left) (count + 1) tokens) := by
  rw [parseArgs]
  exact h.bind _

theorem tooNested_others {count : Nat} (h : parseExpr left tokens = .ok (e, ⟨.comma, i⟩ :: after))
    (hothers : TooNested (parseArgs (parseExpr left) count after)) :
    TooNested (parseArgs (parseExpr left) (count + 1) tokens) := by
  rw [parseArgs, h, ok_bind]
  dsimp only
  rw [next?_cons]
  exact hothers.bind _

end Steps

/-- Of the parts of a derivation, the first that costs too much is refused, and all before it are read. -/
theorem refuses_of_derives {symbol : Symbol} {c : Nat} {ts : List Token} {tree : symbol.Tree}
    (h : Derives symbol c ts tree) : ∀ left, left < c → Refuses symbol left ts := by
  induction h with
  | expression _ ih =>
      intro left hc rest
      cases left with
      | zero => exact tooNested_zero _
      | succ left => exact tooNested_parseExpr (ih left (by omega) (by decide) rest)
  | @conditional c c₁ c₂ i j ts ts₁ ts₂ cond yes no hcond hyes _ ih ih₁ ih₂ =>
      intro left hc rest
      cases left with
      | zero => exact tooNested_zero _
      | succ left =>
          by_cases hcond' : left < c
          · have h := ih left hcond' (by decide) (⟨.question, i⟩ :: (ts₁ ++ ⟨.colon, j⟩ :: (ts₂ ++ rest)))
            simpa using tooNested_parseExpr h
          have hread := reads_of_derives hcond left (by omega) (by decide)
            (⟨.question, i⟩ :: (ts₁ ++ ⟨.colon, j⟩ :: (ts₂ ++ rest))) (stops_cons (by simp) _ _)
          by_cases hyes' : left < c₁
          · simpa using tooNested_first hread (ih₁ left hyes' (⟨.colon, j⟩ :: (ts₂ ++ rest)))
          have hread₁ := reads_of_derives hyes left (by omega) (⟨.colon, j⟩ :: (ts₂ ++ rest))
            (stops_cons (by simp) _ _) rfl
          simpa using tooNested_second hread hread₁ (ih₂ left (by omega) rest)
  | tightest _ ih =>
      intro left hc _ rest
      rw [parseChain]
      exact ih left hc rest
  | chain _ ih => exact ih
  | operand _ ih =>
      intro left hc hnodup rest
      rw [parseChain]
      exact (ih left hc (List.nodup_cons.mp hnodup).2 rest).bind _
  | @link level levels count c c' i ts ts' first second symbol op hfirst hop _ ih ih' =>
      intro left hc hnodup rest
      obtain ⟨hlevel, hlevels⟩ := List.nodup_cons.mp hnodup
      by_cases hfirst' : left < c
      · simpa using ih left hfirst' hnodup (⟨.op symbol, i⟩ :: (ts' ++ rest))
      have hread := (reads_of_derives hfirst left (by omega) hnodup).2
        (⟨.op symbol, i⟩ :: (ts' ++ rest)) (stops_op hop hlevel _ _)
      have hlink : TooNested (parseLinks (left - count) level levels first
          (⟨.op symbol, i⟩ :: (ts' ++ rest))) :=
        tooNested_link hop fun left' hleft => ih' left' (by omega) hlevels rest
      rw [← hread] at hlink
      simpa using hlink
  | unprefixed h ih =>
      intro left hc rest
      obtain ⟨token, more, rfl, hkind⟩ := h.suffixed_starts
      exact tooNested_unprefixed hkind (ih left hc rest)
  | prefixed _ ih =>
      intro left hc rest
      exact tooNested_prefixed fun left' hleft => ih left' (by omega) rest
  | plain _ ih =>
      intro left hc rest
      exact tooNested_parsePostfix (ih left hc rest)
  | @coalesce c c' i ts ts' first second hfirst _ ih ih' =>
      intro left hc rest
      by_cases hfirst' : left < c
      · simpa using tooNested_parsePostfix (ih left hfirst' (⟨.op "??", i⟩ :: (ts' ++ rest)))
      have hread := reads_of_derives hfirst left (by omega) (⟨.op "??", i⟩ :: (ts' ++ rest))
      simpa using tooNested_alternative hread (ih' left (by omega) rest)
  | @group c i j ts e _ ih =>
      intro left hc rest
      simpa using tooNested_group (i := i) (ih left hc (⟨.rightParen, j⟩ :: rest))
  | @call name c i j k ts args h ih =>
      intro left hc rest
      obtain ⟨token, more, rfl, hkind⟩ := h.starts
      have hclose : next? .rightParen ((token :: more) ++ ⟨.rightParen, k⟩ :: rest) = none := if_neg hkind
      have hargs := ih left hc ((token :: more) ++ ⟨.rightParen, k⟩ :: rest).length
        (⟨.rightParen, k⟩ :: rest) (by simp)
      simpa using tooNested_call hclose hargs
  | last _ ih =>
      intro left hc count rest hcount
      obtain ⟨count, rfl⟩ : ∃ n, count = n + 1 := ⟨count - 1, by omega⟩
      exact tooNested_argument (ih left hc rest)
  | @more c c' i ts ts' e args hfirst _ ih ih' =>
      intro left hc count rest hcount
      obtain ⟨count, rfl⟩ : ∃ n, count = n + 1 := ⟨count - 1, by omega⟩
      by_cases hfirst' : left < c
      · simpa using tooNested_argument (ih left hfirst' (⟨.comma, i⟩ :: (ts' ++ rest)))
      have hread := reads_of_derives hfirst left (by omega) (⟨.comma, i⟩ :: (ts' ++ rest))
        (stops_cons (by simp) _ _) rfl
      have hothers := ih' left (by omega) count rest (by simp at hcount; omega)
      simpa using tooNested_others hread hothers
  | _ =>
      intro left hc
      exact absurd hc (Nat.not_lt_zero left)

/-- Tokens with a derivation are read to its tree, or refused at the limit of nesting if it costs more
levels than there are. -/
theorem ofTokens_of_derives {c : Nat} {ts : List Token} {e : Expr} (h : Derives .expression c ts e) :
    c ≤ maxNesting ∧ ofTokens ts = .ok e ∨ maxNesting < c ∧ TooNested (ofTokens ts) := by
  rcases Nat.lt_or_ge maxNesting c with hc | hc
  · have hrefused := refuses_of_derives h maxNesting hc []
    rw [List.append_nil] at hrefused
    exact .inr ⟨hc, hrefused.bind _⟩
  · exact .inl ⟨hc, ofTokens_eq_ok.mpr (parseExpr_of_derives h hc)⟩

end StampedPrograms.Expr
