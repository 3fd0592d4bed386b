import StampedPrograms.Proofs.Error
import StampedPrograms.Proofs.Expr.Grammar

/-!
The parser reads what the grammar derives. What it returns has a derivation within the levels that are
left, found by following its calls. Conversely tokens with a derivation are read to the tree of the
derivation in front of any tokens that could not continue it, and so they have only one tree.
-/

namespace StampedPrograms.Expr

/-- Some tokens in front of `rest` derive the tree within so many levels. -/
def Found (symbol : Symbol) (left : Nat) (tokens : List Token) (tree : symbol.Tree)
    (rest : List Token) : Prop :=
  ∃ cost used, cost ≤ left ∧ tokens = used ++ rest ∧ Derives symbol cost used tree

theorem expect_eq_ok {kind : Token.Kind} {tokens rest : List Token} :
    expect kind tokens = .ok rest ↔ ∃ i, tokens = ⟨kind, i⟩ :: rest := by
  cases tokens with
  | nil => simp [expect]
  | cons token tokens =>
      obtain ⟨found, i⟩ := token
      rw [expect]
      split
      · next h => simp_all
      · next h => simp; exact fun h' => absurd h' h

theorem next?_eq_some {kind : Token.Kind} {tokens rest : List Token} :
    next? kind tokens = some rest ↔ ∃ i, tokens = ⟨kind, i⟩ :: rest := by
  cases tokens with
  | nil => simp [next?]
  | cons token tokens =>
      obtain ⟨found, i⟩ := token
      rw [next?]
      split
      · next h => simp_all
      · next h => simp; exact fun h' => absurd h' h

theorem link?_eq_some {level : Level} {tokens rest : List Token} {op : BinaryOp}
    (h : level.link? tokens = some (op, rest)) :
    ∃ symbol i, (symbol, op) ∈ level.operators ∧ tokens = ⟨.op symbol, i⟩ :: rest := by
  unfold Level.link? at h
  split at h
  · next symbol i tail =>
      obtain ⟨found, hfound, heq⟩ := Option.map_eq_some_iff.mp h
      cases heq
      exact ⟨symbol, i, Level.operator?_eq_some_iff.mp hfound, rfl⟩
  · cases h

theorem prefixOp?_eq_some {tokens rest : List Token} {op : UnaryOp}
    (h : prefixOp? tokens = some (op, rest)) : ∃ i, tokens = ⟨.op op.symbol, i⟩ :: rest := by
  unfold prefixOp? at h
  split at h
  · next symbol i tail =>
      refine ⟨i, ?_⟩
      split at h
      · next heq => cases h; rw [heq]; rfl
      split at h
      · next heq => cases h; rw [heq]; rfl
      split at h
      · next heq => cases h; rw [heq]; rfl
      · cases h
  · cases h

/-! ### What is read has a derivation -/

theorem parseParam_sound {tokens rest : List Token} {e : Expr} (h : parseParam tokens = .ok (e, rest)) :
    ∃ i j name, tokens = ⟨.dot, i⟩ :: ⟨.ident name, j⟩ :: rest ∧ e = .param name := by
  rw [parseParam, bind_eq_ok] at h
  obtain ⟨tokens, hdot, h⟩ := h
  obtain ⟨i, rfl⟩ := expect_eq_ok.mp hdot
  split at h
  · cases h
  · next token tail =>
      obtain ⟨kind, j⟩ := token
      split at h
      · next name hkind =>
          cases h
          cases hkind
          exact ⟨i, j, name, rfl, rfl⟩
      · cases h

theorem parseName_sound {i left : Nat} {name : String} {tokens rest : List Token} {e : Expr}
    (h : parseName ⟨.ident name, i⟩ name tokens = .ok (e, rest)) :
    Found .primary left (⟨.ident name, i⟩ :: tokens) e rest := by
  unfold parseName at h
  split at h
  · next hname => cases h; subst hname; exact ⟨0, [_], Nat.zero_le _, rfl, .score⟩
  split at h
  · next hname => cases h; subst hname; exact ⟨0, [_], Nat.zero_le _, rfl, .true⟩
  split at h
  · next hname => cases h; subst hname; exact ⟨0, [_], Nat.zero_le _, rfl, .false⟩
  split at h
  · next hname => cases h; subst hname; exact ⟨0, [_], Nat.zero_le _, rfl, .null⟩
  split at h
  · next hname =>
      subst hname
      obtain ⟨j, k, param, rfl, rfl⟩ := parseParam_sound h
      exact ⟨0, [_, _, _], Nat.zero_le _, rfl, .param⟩
  · cases h

theorem parseArgs_sound {parse : List Token → Parsed} {left : Nat}
    (hparse : ∀ tokens e rest, parse tokens = .ok (e, rest) → Found .expression left tokens e rest)
    {count : Nat} {tokens rest : List Token} {args : List Expr} (hcount : tokens.length ≤ count)
    (h : parseArgs parse count tokens = .ok (args, rest)) :
    ∃ i, Found .arguments left tokens args (⟨.rightParen, i⟩ :: rest) := by
  induction count generalizing tokens args with
  | zero =>
      simp only [parseArgs, bind_eq_ok] at h
      obtain ⟨⟨arg, tail⟩, harg, -⟩ := h
      obtain ⟨c, used, -, hused, hderives⟩ := hparse [] arg tail harg
      obtain ⟨token, more, rfl, -⟩ := hderives.starts
      cases hused
  | succ count ih =>
      simp only [parseArgs, bind_eq_ok] at h
      obtain ⟨⟨arg, tail⟩, harg, h⟩ := h
      obtain ⟨c, used, hc, rfl, hderives⟩ := hparse tokens arg tail harg
      split at h
      · next tail' hcomma =>
          obtain ⟨i, rfl⟩ := next?_eq_some.mp hcomma
          rw [bind_eq_ok] at h
          obtain ⟨⟨others, tail⟩, hothers, h⟩ := h
          cases h
          have hshorter : tail'.length ≤ count := by
            simp only [List.length_append, List.length_cons] at hcount
            omega
          obtain ⟨j, c', used', hc', rfl, hderives'⟩ := ih hshorter hothers
          exact ⟨j, max c c', used ++ ⟨.comma, i⟩ :: used', by omega, by simp,
            .more hderives hderives'⟩
      · rw [bind_eq_ok] at h
        obtain ⟨tail, hclose, h⟩ := h
        cases h
        obtain ⟨i, rfl⟩ := expect_eq_ok.mp hclose
        exact ⟨i, c, used, hc, rfl, .last hderives⟩

mutual

theorem parseExpr_sound {left : Nat} {tokens rest : List Token} {e : Expr}
    (h : parseExpr left tokens = .ok (e, rest)) : Found .expression left tokens e rest := by
  match left with
  | 0 =>
      rw [parseExpr] at h
      cases h
  | left + 1 =>
      rw [parseExpr, bind_eq_ok] at h
      obtain ⟨⟨cond, tail⟩, hcond, h⟩ := h
      obtain ⟨c, used, hc, rfl, hderives⟩ := parseChain_sound hcond
      dsimp only at h
      split at h
      · cases h
        exact ⟨c + 1, used, by omega, rfl, .expression hderives⟩
      · next tail' hquestion =>
          obtain ⟨i, rfl⟩ := next?_eq_some.mp hquestion
          rw [bind_eq_ok] at h
          obtain ⟨⟨yes, tail⟩, hyes, h⟩ := h
          obtain ⟨c₁, used₁, hc₁, rfl, hderives₁⟩ := parseExpr_sound hyes
          rw [bind_eq_ok] at h
          obtain ⟨tail', hcolon, h⟩ := h
          obtain ⟨j, rfl⟩ := expect_eq_ok.mp hcolon
          rw [bind_eq_ok] at h
          obtain ⟨⟨no, tail⟩, hno, h⟩ := h
          obtain ⟨c₂, used₂, hc₂, rfl, hderives₂⟩ := parseExpr_sound hno
          cases h
          exact ⟨_, used ++ ⟨.question, i⟩ :: (used₁ ++ ⟨.colon, j⟩ :: used₂), by omega, by simp,
            .conditional hderives hderives₁ hderives₂⟩
termination_by 20 * left
decreasing_by all_goals simp <;> omega

theorem parseChain_sound {left : Nat} {levels : List Level} {tokens rest : List Token} {e : Expr}
    (h : parseChain left levels tokens = .ok (e, rest)) :
    Found (.chain levels) left tokens e rest := by
  match levels with
  | [] =>
      rw [parseChain] at h
      obtain ⟨c, used, hc, rfl, hderives⟩ := parseUnary_sound h
      exact ⟨c, used, hc, rfl, .tightest hderives⟩
  | level :: levels =>
      rw [parseChain, bind_eq_ok] at h
      obtain ⟨⟨first, tail⟩, hfirst, h⟩ := h
      obtain ⟨c, used, hc, rfl, hderives⟩ := parseChain_sound hfirst
      obtain ⟨count, c', used', hc', rfl, hderives'⟩ :=
        parseLinks_sound (.operand hderives) (Nat.le_trans hc (Nat.le_refl _)) h
      exact ⟨c', used ++ used', hc', (List.append_assoc ..).symm, .chain hderives'⟩
termination_by 20 * left + 2 * levels.length + 5
decreasing_by all_goals simp <;> omega

/-- A chain of `count` links that is followed by `left` more levels goes on within all of them. -/
theorem parseLinks_sound {left : Nat} {level : Level} {levels : List Level} {first e : Expr}
    {tokens used rest : List Token} {count c : Nat}
    (hfirst : Derives (.links level levels count) c used first) (hc : c ≤ left + count)
    (h : parseLinks left level levels first tokens = .ok (e, rest)) :
    ∃ count' c' used', c' ≤ left + count ∧ tokens = used' ++ rest ∧
      Derives (.links level levels count') c' (used ++ used') e := by
  rw [parseLinks] at h
  split at h
  · cases h
    exact ⟨count, c, [], hc, rfl, (List.append_nil used).symm ▸ hfirst⟩
  · next op tail hlink =>
      obtain ⟨symbol, i, hop, rfl⟩ := link?_eq_some hlink
      match hleft : left, h with
      | 0, h' => cases h'
      | left + 1, h' =>
          rw [bind_eq_ok] at h'
          obtain ⟨⟨second, tail⟩, hsecond, h'⟩ := h'
          obtain ⟨c', used', hc', rfl, hderives'⟩ := parseChain_sound hsecond
          obtain ⟨count'', c'', used'', hc'', rfl, hderives''⟩ :=
            parseLinks_sound (.link (i := i) hfirst hop hderives') (by omega) h'
          refine ⟨count'', c'', ⟨.op symbol, i⟩ :: (used' ++ used''), by omega, by simp, ?_⟩
          simpa using hderives''
termination_by 20 * left + 2 * levels.length + 6
decreasing_by all_goals omega

theorem parseUnary_sound {left : Nat} {tokens rest : List Token} {e : Expr}
    (h : parseUnary left tokens = .ok (e, rest)) : Found .unary left tokens e rest := by
  rw [parseUnary] at h
  split at h
  · obtain ⟨c, used, hc, rfl, hderives⟩ := parsePostfix_sound h
    exact ⟨c, used, hc, rfl, .unprefixed hderives⟩
  · next op tail hprefix =>
      obtain ⟨i, rfl⟩ := prefixOp?_eq_some hprefix
      match hleft : left, h with
      | 0, h' => cases h'
      | left + 1, h' =>
          rw [bind_eq_ok] at h'
          obtain ⟨⟨operand, tail⟩, hoperand, h'⟩ := h'
          obtain ⟨c, used, hc, rfl, hderives⟩ := parseUnary_sound hoperand
          cases h'
          exact ⟨c + 1, _ :: used, by omega, rfl, .prefixed hderives⟩
termination_by 20 * left + 4
decreasing_by all_goals omega

theorem parsePostfix_sound {left : Nat} {tokens rest : List Token} {e : Expr}
    (h : parsePostfix left tokens = .ok (e, rest)) : Found .suffixed left tokens e rest := by
  rw [parsePostfix, bind_eq_ok] at h
  obtain ⟨⟨first, tail⟩, hfirst, h⟩ := h
  obtain ⟨c, used, hc, rfl, hderives⟩ := parsePrimary_sound hfirst
  dsimp only at h
  split at h
  · cases h
    exact ⟨c, used, hc, rfl, .plain hderives⟩
  · next tail' hcoalesce =>
      obtain ⟨i, rfl⟩ := next?_eq_some.mp hcoalesce
      rw [bind_eq_ok] at h
      obtain ⟨⟨second, tail⟩, hsecond, h⟩ := h
      obtain ⟨c', used', hc', rfl, hderives'⟩ := parsePrimary_sound hsecond
      cases h
      exact ⟨max c c', used ++ ⟨.op "??", i⟩ :: used', by omega, by simp,
        .coalesce hderives hderives'⟩
termination_by 20 * left + 3

theorem parsePrimary_sound {left : Nat} {tokens rest : List Token} {e : Expr}
    (h : parsePrimary left tokens = .ok (e, rest)) : Found .primary left tokens e rest := by
  match tokens with
  | [] =>
      rw [parsePrimary] at h
      cases h
  | ⟨kind, i⟩ :: tail =>
      rw [parsePrimary] at h
      split at h
      · next hkind =>
          cases hkind
          rw [bind_eq_ok] at h
          obtain ⟨⟨inner, tail⟩, hinner, h⟩ := h
          obtain ⟨c, used, hc, rfl, hderives⟩ := parseExpr_sound hinner
          rw [bind_eq_ok] at h
          obtain ⟨tail', hclose, h⟩ := h
          obtain ⟨j, rfl⟩ := expect_eq_ok.mp hclose
          cases h
          exact ⟨c, ⟨.leftParen, i⟩ :: (used ++ [⟨.rightParen, j⟩]), hc, by simp, .group hderives⟩
      · next text hkind =>
          cases hkind
          cases h
          exact ⟨0, [_], Nat.zero_le _, rfl, .number⟩
      · next text hkind =>
          cases hkind
          cases h
          exact ⟨0, [_], Nat.zero_le _, rfl, .string⟩
      · next name hkind =>
          cases hkind
          rw [bind_eq_ok] at h
          obtain ⟨tail', hopen, h⟩ := h
          obtain ⟨j, rfl⟩ := expect_eq_ok.mp hopen
          dsimp only at h
          split at h
          · next tail hclose =>
              obtain ⟨k, rfl⟩ := next?_eq_some.mp hclose
              cases h
              exact ⟨0, [_, _, _], Nat.zero_le _, rfl, .constant⟩
          · rw [bind_eq_ok] at h
            obtain ⟨⟨args, tail⟩, hargs, h⟩ := h
            cases h
            obtain ⟨k, c, used, hc, rfl, hderives⟩ :=
              parseArgs_sound (fun _ _ _ => parseExpr_sound) (Nat.le_refl _) hargs
            exact ⟨c, ⟨.call name, i⟩ :: ⟨.leftParen, j⟩ :: (used ++ [⟨.rightParen, k⟩]), hc, by simp,
              .call hderives⟩
      · next name hkind =>
          cases hkind
          exact parseName_sound h
      · cases h
termination_by 20 * left + 2

end

/-! ### What has a derivation is read -/

/-- What comes next does not continue an operand, and is no link of a chain of these levels. -/
def Stops (levels : List Level) (rest : List Token) : Prop :=
  next? (.op "??") rest = none ∧ ∀ level ∈ levels, level.link? rest = none

theorem stops_nil (levels : List Level) : Stops levels [] :=
  ⟨rfl, fun _ _ => rfl⟩

theorem stops_cons {token : Token} (h : ∀ symbol, token.kind ≠ .op symbol) (levels : List Level)
    (rest : List Token) : Stops levels (token :: rest) := by
  obtain ⟨kind, i⟩ := token
  refine ⟨if_neg (h "??"), fun level _ => ?_⟩
  cases kind with
  | op symbol => exact absurd rfl (h symbol)
  | _ => rfl

theorem Stops.tighter {level : Level} {levels : List Level} {rest : List Token}
    (h : Stops (level :: levels) rest) : Stops levels rest :=
  ⟨h.1, fun level hlevel => h.2 level (List.mem_cons_of_mem _ hlevel)⟩

/-- No symbol has operators of two levels, and the one of `coalesce` has none. -/
theorem operators_disjoint (level other : Level) :
    ∀ entry ∈ level.operators, entry.1 ≠ "??" ∧ ∀ entry' ∈ other.operators, entry'.1 = entry.1 → other = level := by
  cases level <;> cases other <;> decide

/-- An operator is no link of a chain of other levels. -/
theorem stops_op {level : Level} {levels : List Level} {symbol : String} {op : BinaryOp}
    (h : (symbol, op) ∈ level.operators) (hlevel : level ∉ levels) (i : Nat) (rest : List Token) :
    Stops levels (⟨.op symbol, i⟩ :: rest) := by
  refine ⟨if_neg ?_, fun other hother => ?_⟩
  · intro heq
    exact (operators_disjoint level level _ h).1 (Token.Kind.op.inj heq)
  · cases hop : other.operator? symbol with
    | none => rw [Level.link?, hop]; rfl
    | some op' =>
        have hsame := (operators_disjoint level other _ h).2 _ (Level.operator?_eq_some_iff.mp hop) rfl
        exact absurd (hsame ▸ hother) hlevel

theorem next?_cons (kind : Token.Kind) (i : Nat) (rest : List Token) :
    next? kind (⟨kind, i⟩ :: rest) = some rest := if_pos rfl

theorem expect_cons (kind : Token.Kind) (i : Nat) (rest : List Token) :
    expect kind (⟨kind, i⟩ :: rest) = .ok rest := if_pos rfl

section Steps

variable {left i j : Nat} {tokens after after' rest : List Token} {e e₁ e₂ : Expr}

theorem parseExpr_expression (h : parseChain left Level.all tokens = .ok (e, rest))
    (hrest : next? .question rest = none) : parseExpr (left + 1) tokens = .ok (e, rest) := by
  rw [parseExpr, h, ok_bind]
  dsimp only
  rw [hrest]
  rfl

theorem parseExpr_conditional
    (h : parseChain left Level.all tokens = .ok (e, ⟨.question, i⟩ :: after))
    (hyes : parseExpr left after = .ok (e₁, ⟨.colon, j⟩ :: after'))
    (hno : parseExpr left after' = .ok (e₂, rest)) :
    parseExpr (left + 1) tokens = .ok (.ternary e e₁ e₂, rest) := by
  rw [parseExpr, h, ok_bind]
  dsimp only
  rw [next?_cons]
  dsimp only
  rw [hyes, ok_bind]
  dsimp only
  rw [expect_cons, ok_bind, hno]
  rfl

theorem parseChain_links {level : Level} {levels : List Level} {budget : Nat}
    (h : parseChain left (level :: levels) tokens = parseLinks budget level levels e rest)
    (hrest : level.link? rest = none) : parseChain left (level :: levels) tokens = .ok (e, rest) := by
  rw [h, parseLinks, hrest]

theorem parseLinks_link {level : Level} {levels : List Level} {symbol : String} {op : BinaryOp}
    (hop : (symbol, op) ∈ level.operators) (h : parseChain left levels after = .ok (e₁, rest)) :
    parseLinks (left + 1) level levels e (⟨.op symbol, i⟩ :: after) =
      parseLinks left level levels (.binary op e e₁) rest := by
  rw [parseLinks, Level.link?, Level.operator?_eq_some_iff.mpr hop, Option.map_some]
  dsimp only
  rw [h, ok_bind]

theorem parseUnary_prefixed {op : UnaryOp} (h : parseUnary left after = .ok (e, rest)) :
    parseUnary (left + 1) (⟨.op op.symbol, i⟩ :: after) = .ok (.unary op e, rest) := by
  have hop : prefixOp? (⟨.op op.symbol, i⟩ :: after) = some (op, after) := by
    cases op <;> rfl
  rw [parseUnary, hop]
  dsimp only
  rw [h]
  rfl

theorem parseUnary_unprefixed {token : Token} (htoken : ∀ symbol, token.kind ≠ .op symbol)
    (h : parsePostfix left (token :: after) = .ok (e, rest)) :
    parseUnary left (token :: after) = .ok (e, rest) := by
  obtain ⟨kind, i⟩ := token
  rw [parseUnary]
  cases kind with
  | op symbol => exact absurd rfl (htoken symbol)
  | _ => exact h

theorem parsePostfix_plain (h : parsePrimary left tokens = .ok (e, rest))
    (hrest : next? (.op "??") rest = none) : parsePostfix left tokens = .ok (e, rest) := by
  rw [parsePostfix, h, ok_bind]
  dsimp only
  rw [hrest]
  rfl

theorem parsePostfix_coalesce (h : parsePrimary left tokens = .ok (e, ⟨.op "??", i⟩ :: after))
    (h₁ : parsePrimary left after = .ok (e₁, rest)) :
    parsePostfix left tokens = .ok (.coalesce e e₁, rest) := by
  rw [parsePostfix, h, ok_bind]
  dsimp only
  rw [next?_cons]
  dsimp only
  rw [h₁]
  rfl

theorem parsePrimary_group (h : parseExpr left after = .ok (e, ⟨.rightParen, j⟩ :: rest)) :
    parsePrimary left (⟨.leftParen, i⟩ :: after) = .ok (e, rest) := by
  rw [parsePrimary]
  dsimp only
  rw [h, ok_bind]
  dsimp only
  rw [expect_cons]
  rfl

theorem parsePrimary_call {name : String} {args : List Expr} (hafter : next? .rightParen after = none)
    (h : parseArgs (parseExpr left) after.length after = .ok (args, rest)) :
    parsePrimary left (⟨.call name, i⟩ :: ⟨.leftParen, j⟩ :: after) = .ok (.call name args, rest) := by
  rw [parsePrimary]
  dsimp only
  rw [expect_cons, ok_bind, hafter]
  dsimp only
  rw [h]
  rfl

theorem parseArgs_last {parse : List Token → Parsed} (count : Nat)
    (h : parse tokens = .ok (e, ⟨.rightParen, i⟩ :: rest)) :
    parseArgs parse (count + 1) tokens = .ok ([e], rest) := by
  rw [parseArgs, h, ok_bind]
  dsimp only
  rw [next?, if_neg Token.Kind.noConfusion]
  dsimp only
  rw [expect_cons]
  rfl

theorem parseArgs_more {parse : List Token → Parsed} {count : Nat} {args : List Expr}
    (h : parse tokens = .ok (e, ⟨.comma, i⟩ :: after))
    (hargs : parseArgs parse count after = .ok (args, rest)) :
    parseArgs parse (count + 1) tokens = .ok (e :: args, rest) := by
  rw [parseArgs, h, ok_bind]
  dsimp only
  rw [next?_cons]
  dsimp only
  rw [hargs]
  rfl

end Steps

/-- The tokens are read as the tree of the symbol in front of all that does not continue them. The
links of a chain are read one after the other, each with the levels that the links before it left. -/
def Reads : (symbol : Symbol) → (left : Nat) → List Token → symbol.Tree → Prop
  | .expression, left, ts, e =>
      ∀ rest, Stops Level.all rest → next? .question rest = none →
        parseExpr left (ts ++ rest) = .ok (e, rest)
  | .chain levels, left, ts, e =>
      levels.Nodup → ∀ rest, Stops levels rest → parseChain left levels (ts ++ rest) = .ok (e, rest)
  | .links level levels count, left, ts, e =>
      (level :: levels).Nodup → count ≤ left ∧ ∀ rest, Stops levels rest →
        parseChain left (level :: levels) (ts ++ rest) = parseLinks (left - count) level levels e rest
  | .unary, left, ts, e => ∀ rest, Stops [] rest → parseUnary left (ts ++ rest) = .ok (e, rest)
  | .suffixed, left, ts, e => ∀ rest, Stops [] rest → parsePostfix left (ts ++ rest) = .ok (e, rest)
  | .primary, left, ts, e => ∀ rest, parsePrimary left (ts ++ rest) = .ok (e, rest)
  | .arguments, left, ts, args =>
      ∀ i count rest, ts.length < count →
        parseArgs (parseExpr left) count (ts ++ ⟨.rightParen, i⟩ :: rest) = .ok (args, rest)

theorem reads_of_derives {symbol : Symbol} {c : Nat} {ts : List Token} {tree : symbol.Tree}
    (h : Derives symbol c ts tree) : ∀ left, c ≤ left → Reads symbol left ts tree := by
  induction h with
  | expression _ ih =>
      intro left hc rest hstops hquestion
      obtain ⟨left, rfl⟩ : ∃ l, left = l + 1 := ⟨left - 1, by omega⟩
      exact parseExpr_expression (ih left (by omega) (by decide) rest hstops) hquestion
  | @conditional c c₁ c₂ i j ts ts₁ ts₂ cond yes no _ _ _ ih ih₁ ih₂ =>
      intro left hc rest hstops hquestion
      obtain ⟨left, rfl⟩ : ∃ l, left = l + 1 := ⟨left - 1, by omega⟩
      have hcond := ih left (by omega) (by decide) (⟨.question, i⟩ :: (ts₁ ++ ⟨.colon, j⟩ :: (ts₂ ++ rest)))
        (stops_cons (by simp) _ _)
      have hyes := ih₁ left (by omega) (⟨.colon, j⟩ :: (ts₂ ++ rest)) (stops_cons (by simp) _ _) rfl
      have hno := ih₂ left (by omega) rest hstops hquestion
      simpa using parseExpr_conditional hcond hyes hno
  | tightest _ ih =>
      intro left hc _ rest hstops
      rw [parseChain]
      exact ih left hc rest hstops
  | @chain level levels count c ts e _ ih =>
      intro left hc hnodup rest hstops
      exact parseChain_links ((ih left hc hnodup).2 rest hstops.tighter)
        (hstops.2 level (List.mem_cons_self ..))
  | operand _ ih =>
      intro left hc hnodup
      refine ⟨Nat.zero_le _, fun rest hstops => ?_⟩
      rw [parseChain, ih left hc (List.nodup_cons.mp hnodup).2 rest hstops]
      rfl
  | @link level levels count c c' i ts ts' first second symbol op _ hop _ ih ih' =>
      intro left hc hnodup
      obtain ⟨hlevel, hlevels⟩ := List.nodup_cons.mp hnodup
      refine ⟨by omega, fun rest hstops => ?_⟩
      have hchain := (ih left (by omega) hnodup).2 (⟨.op symbol, i⟩ :: (ts' ++ rest))
        (stops_op hop hlevel _ _)
      have hsecond := ih' (left - (count + 1)) (by omega) hlevels rest hstops
      have hleft : left - count = left - (count + 1) + 1 := by omega
      rw [hleft, parseLinks_link hop hsecond] at hchain
      simpa using hchain
  | unprefixed h ih =>
      intro left hc rest hstops
      obtain ⟨token, more, rfl, hkind⟩ := h.suffixed_starts
      exact parseUnary_unprefixed hkind (ih left hc rest hstops)
  | prefixed _ ih =>
      intro left hc rest hstops
      obtain ⟨left, rfl⟩ : ∃ l, left = l + 1 := ⟨left - 1, by omega⟩
      exact parseUnary_prefixed (ih left (by omega) rest hstops)
  | plain _ ih =>
      intro left hc rest hstops
      exact parsePostfix_plain (ih left hc rest) hstops.1
  | @coalesce c c' i ts ts' first second _ _ ih ih' =>
      intro left hc rest hstops
      have hfirst := ih left (by omega) (⟨.op "??", i⟩ :: (ts' ++ rest))
      simpa using parsePostfix_coalesce hfirst (ih' left (by omega) rest)
  | @group c i j ts e _ ih =>
      intro left hc rest
      have hinner := ih left hc (⟨.rightParen, j⟩ :: rest) (stops_cons (by simp) _ _) rfl
      simpa using parsePrimary_group (i := i) hinner
  | @call name c i j k ts args h ih =>
      intro left hc rest
      obtain ⟨token, more, rfl, hkind⟩ := h.starts
      have hclose : next? .rightParen ((token :: more) ++ ⟨.rightParen, k⟩ :: rest) = none := if_neg hkind
      have hargs := ih left hc k ((token :: more) ++ ⟨.rightParen, k⟩ :: rest).length rest (by simp)
      simpa using parsePrimary_call hclose hargs
  | last _ ih =>
      intro left hc i count rest hcount
      obtain ⟨count, rfl⟩ : ∃ n, count = n + 1 := ⟨count - 1, by omega⟩
      exact parseArgs_last count (ih left hc _ (stops_cons (by simp) _ _) rfl)
  | @more c c' i ts ts' e args _ _ ih ih' =>
      intro left hc j count rest hcount
      obtain ⟨count, rfl⟩ : ∃ n, count = n + 1 := ⟨count - 1, by omega⟩
      have hfirst := ih left (by omega) (⟨.comma, i⟩ :: (ts' ++ ⟨.rightParen, j⟩ :: rest))
        (stops_cons (by simp) _ _) rfl
      have hothers := ih' left (by omega) j count rest (by simp at hcount; omega)
      simpa using parseArgs_more hfirst hothers
  | _ =>
      intro left _ rest
      rw [List.cons_append, parsePrimary]
      rfl

theorem ofTokens_eq_ok {ts : List Token} {e : Expr} :
    ofTokens ts = .ok e ↔ parseExpr maxNesting ts = .ok (e, []) := by
  rw [ofTokens]
  cases h : parseExpr maxNesting ts with
  | error => simp [bind, Except.bind]
  | ok parsed =>
      obtain ⟨e', rest⟩ := parsed
      cases rest with
      | nil => simp [ok_bind, pure, Except.pure]
      | cons => simp [ok_bind]

theorem parseExpr_of_derives {c left : Nat} {ts : List Token} {e : Expr}
    (h : Derives .expression c ts e) (hc : c ≤ left) : parseExpr left ts = .ok (e, []) := by
  have hread := reads_of_derives h left hc [] (stops_nil _) rfl
  rwa [List.append_nil] at hread

/-- Where in the source the tokens stand makes no difference to the tree. -/
theorem ofTokens_of_kinds {ts ts' : List Token} {e : Expr} (h : ofTokens ts = .ok e)
    (hkinds : ts'.map Token.kind = ts.map Token.kind) : ofTokens ts' = .ok e := by
  obtain ⟨cost, used, hcost, rfl, hderives⟩ := parseExpr_sound (ofTokens_eq_ok.mp h)
  rw [List.append_nil] at hkinds
  exact ofTokens_eq_ok.mpr (parseExpr_of_derives (hderives.of_kinds hkinds) hcost)

/-- The parser accepts what the grammar derives within the levels there are, and as the only tree that
the grammar has for it at any cost. -/
theorem ofTokens_eq_ok_iff_derives (ts : List Token) (e : Expr) :
    (ofTokens ts = .ok e ↔ ∃ cost, cost ≤ maxNesting ∧ Derives .expression cost ts e) ∧
      ∀ cost cost' e', Derives .expression cost ts e → Derives .expression cost' ts e' → e = e' := by
  refine ⟨?_, fun cost cost' e' h h' => ?_⟩
  · rw [ofTokens_eq_ok]
    constructor
    · intro h
      obtain ⟨cost, used, hcost, rfl, hderives⟩ := parseExpr_sound h
      exact ⟨cost, hcost, (List.append_nil used).symm ▸ hderives⟩
    · rintro ⟨cost, hcost, hderives⟩
      exact parseExpr_of_derives hderives hcost
  · have hread := parseExpr_of_derives h (Nat.le_max_left cost cost')
    rw [parseExpr_of_derives h' (Nat.le_max_right cost cost')] at hread
    cases hread
    rfl

/-- A call of two arguments, the first with operators of two levels. -/
theorem ofTokens_call :
    let tokens : List Token := [⟨.call "f", 0⟩, ⟨.leftParen, 1⟩, ⟨.number "1", 2⟩, ⟨.op "+", 4⟩, ⟨.number "2", 6⟩,
      ⟨.op "*", 8⟩, ⟨.number "3", 10⟩, ⟨.comma, 11⟩, ⟨.number "4", 13⟩, ⟨.rightParen, 14⟩]
    let tree := Expr.call "f" [.binary .add (.number "1") (.binary .mul (.number "2") (.number "3")), .number "4"]
    ofTokens tokens = .ok tree ∧ ∃ e, Derives .expression 4 tokens e ∧ tree = e := by
  intro tokens tree
  have hnumber (text : String) (i : Nat) (levels : List Level) :
      Derives (.chain levels) 0 [⟨.number text, i⟩] (.number text) :=
    .chain_of_unary levels (.unprefixed (.plain .number))
  have hproduct : Derives (.chain [.product]) 1 ([⟨.number "2", 6⟩] ++ ⟨.op "*", 8⟩ :: [⟨.number "3", 10⟩])
      (.binary .mul (.number "2") (.number "3")) :=
    .chain (.link (.operand (hnumber "2" 6 [])) (by decide) (hnumber "3" 10 []))
  have hsum : Derives (.chain [.sum, .product]) 2
      ([⟨.number "1", 2⟩] ++ ⟨.op "+", 4⟩ :: ([⟨.number "2", 6⟩] ++ ⟨.op "*", 8⟩ :: [⟨.number "3", 10⟩]))
      (.binary .add (.number "1") (.binary .mul (.number "2") (.number "3"))) :=
    .chain (.link (.operand (hnumber "1" 2 [.product])) (by decide) hproduct)
  have hlast : Derives .arguments 1 [⟨.number "4", 13⟩] [.number "4"] := .last (.of_primary .number)
  have hargs := Derives.more (i := 11)
    (.expression (hsum.looser [.disjunction, .conjunction, .equality, .relation])) hlast
  have hcall : Derives .expression 4 tokens tree :=
    .of_primary (@Derives.call "f" 3 0 1 14 _ _ hargs)
  exact ⟨(ofTokens_eq_ok_iff_derives _ _).1.mpr ⟨4, by decide, hcall⟩, _, hcall,
    (ofTokens_eq_ok_iff_derives _ _).2 4 4 _ hcall hcall⟩

end StampedPrograms.Expr
