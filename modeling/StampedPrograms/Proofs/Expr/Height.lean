import Mathlib.Tactic.Ring
import StampedPrograms.Proofs.Expr.Compliance
import StampedPrograms.Proofs.Expr.Identity
import StampedPrograms.Proofs.Expr.ReadBack

/-!
How tall a tree is that the parser returns. The levels of nesting that a chain takes are free again for the next
chain around it, and for a coalescing and a condition as well, so the height grows by six times the levels that are
left, and a little more, with each expression inside another. Over all levels this is a square. The functions that go
over a tree later go from a node to its parts, and so they call themselves no deeper than that.
-/

namespace StampedPrograms.Expr

/-! ### Trees that are derived -/

/-- The height that an operand of a chain has at most. -/
def operandHeight (cost : Nat) : Nat :=
  max 2 (3 * cost ^ 2 + 1)

/-- The tree is no taller than a tree of the symbol is at this cost. -/
def HeightWithin : (symbol : Symbol) → (cost : Nat) → symbol.Tree → Prop
  | .expression, cost, e => e.height < 3 * cost ^ 2
  | .chain levels, cost, e => e.height ≤ operandHeight cost + levels.length * cost
  | .links _ levels count, cost, e =>
      count ≤ cost ∧ e.height ≤ operandHeight cost + levels.length * cost + count
  | .unary, cost, e | .suffixed, cost, e => e.height ≤ operandHeight cost
  | .primary, cost, e => e.height ≤ max 1 (3 * cost ^ 2)
  | .arguments, cost, args => tallest args < 3 * cost ^ 2

theorem square_le {c c' : Nat} (h : c ≤ c') : 3 * c ^ 2 ≤ 3 * c' ^ 2 :=
  Nat.mul_le_mul_left 3 (Nat.pow_le_pow_left h 2)

theorem square_succ (c : Nat) : 3 * (c + 1) ^ 2 = 3 * c ^ 2 + 6 * c + 3 := by
  ring

theorem operandHeight_le {c c' : Nat} (h : c ≤ c') : operandHeight c ≤ operandHeight c' := by
  have hsquare := square_le h
  simp only [operandHeight]
  omega

/-- With more levels a chain may be taller, by the count of its kinds of operators for each. -/
theorem chainHeight_le {c c' : Nat} (h : c ≤ c') (levels : List Level) :
    operandHeight c + levels.length * c ≤ operandHeight c' + levels.length * c' :=
  Nat.add_le_add (operandHeight_le h) (Nat.mul_le_mul_left _ h)

theorem heightWithin_of_derives {symbol : Symbol} {c : Nat} {ts : List Token} {tree : symbol.Tree}
    (h : Derives symbol c ts tree) : HeightWithin symbol c tree := by
  induction h with
  | @expression c ts e _ ih =>
      have hchain : e.height ≤ operandHeight c + 6 * c := ih
      have hsquare := square_succ c
      rw [HeightWithin]
      rw [operandHeight] at hchain
      omega
  | @conditional c c₁ c₂ i j ts ts₁ ts₂ cond yes no _ _ _ ih ih₁ ih₂ =>
      have hcond : cond.height ≤ operandHeight c + 6 * c := ih
      have hyes : yes.height < 3 * c₁ ^ 2 := ih₁
      have hno : no.height < 3 * c₂ ^ 2 := ih₂
      -- An outcome costs a level, so the condition is not alone with the two levels of a coalescing.
      have hpos : 1 ≤ c₁ := by
        rcases Nat.eq_zero_or_pos c₁ with rfl | hpos
        · exact absurd hyes (Nat.not_lt_zero _)
        · exact hpos
      generalize hmax : max c (max c₁ c₂) = most
      have hchain : operandHeight c + 6 * c ≤ operandHeight most + 6 * most :=
        chainHeight_le (show c ≤ most by omega) Level.precedence
      have hsquare₁ := square_le (show c₁ ≤ most by omega)
      have hsquare₂ := square_le (show c₂ ≤ most by omega)
      have hone := square_le hpos
      have hsquare := square_succ most
      rw [HeightWithin, height]
      rw [operandHeight] at hchain
      rw [operandHeight] at hchain hcond
      omega
  | tightest _ ih => simpa [HeightWithin] using ih
  | @chain level levels count c ts e _ ih =>
      obtain ⟨hcount, hheight⟩ := ih
      rw [HeightWithin, List.length_cons, Nat.succ_mul]
      omega
  | operand _ ih => exact ⟨Nat.zero_le _, ih⟩
  | @link level levels count c c' i ts ts' left right symbol op _ _ _ ih ih' =>
      obtain ⟨hcount, hleft⟩ := ih
      have hright : right.height ≤ operandHeight c' + levels.length * c' := ih'
      have hchain := chainHeight_le (Nat.le_max_left c (c' + (count + 1))) levels
      have hchain' := chainHeight_le (show c' ≤ max c (c' + (count + 1)) by omega) levels
      refine ⟨by omega, ?_⟩
      rw [height]
      omega
  | unprefixed _ ih => exact ih
  | @prefixed op c i ts e _ ih =>
      have hoperand : e.height ≤ operandHeight c := ih
      have hsquare := square_succ c
      rw [HeightWithin, height]
      rw [operandHeight] at hoperand ⊢
      omega
  | @plain c ts e _ ih =>
      have hprimary : e.height ≤ max 1 (3 * c ^ 2) := ih
      rw [HeightWithin, operandHeight]
      omega
  | @coalesce c c' i ts ts' left right _ _ ih ih' =>
      have hleft : left.height ≤ max 1 (3 * c ^ 2) := ih
      have hright : right.height ≤ max 1 (3 * c' ^ 2) := ih'
      have hsquare := square_le (Nat.le_max_left c c')
      have hsquare' := square_le (Nat.le_max_right c c')
      rw [HeightWithin, operandHeight, height]
      omega
  | @group c i j ts e _ ih =>
      have hinner : e.height < 3 * c ^ 2 := ih
      rw [HeightWithin]
      omega
  | @call name c i j k ts args _ ih =>
      have hargs : tallest args < 3 * c ^ 2 := ih
      rw [HeightWithin, height]
      omega
  | @last c ts e _ ih =>
      have harg : e.height < 3 * c ^ 2 := ih
      rw [HeightWithin, tallest, tallest]
      omega
  | @more c c' i ts ts' e args _ _ ih ih' =>
      have harg : e.height < 3 * c ^ 2 := ih
      have hargs : tallest args < 3 * c' ^ 2 := ih'
      have hsquare := square_le (Nat.le_max_left c c')
      have hsquare' := square_le (Nat.le_max_right c c')
      rw [HeightWithin, tallest]
      omega
  | _ => exact Nat.le_max_left ..

theorem height_of_parseExpr {left : Nat} {tokens rest : List Token} {e : Expr}
    (h : parseExpr left tokens = .ok (e, rest)) : e.height < 3 * left ^ 2 := by
  obtain ⟨cost, used, hcost, -, hderives⟩ := parseExpr_sound h
  have hheight : e.height < 3 * cost ^ 2 := heightWithin_of_derives hderives
  exact Nat.lt_of_lt_of_le hheight (square_le hcost)

/-! ### The tallest trees -/

/-- A chain with as many links as there are levels of nesting is taller by these. -/
theorem exists_links (level : Level) {levels : List Level} {c : Nat} {ts : List Token} {e : Expr}
    (h : Derives (.chain levels) c ts e) (count : Nat) :
    ∃ cost ts' e', cost ≤ max c count ∧ Derives (.links level levels count) cost ts' e' ∧
      e'.height = e.height + count := by
  induction count with
  | zero => exact ⟨c, ts, e, Nat.le_max_left .., .operand h, rfl⟩
  | succ count ih =>
      obtain ⟨cost, ts', e', hcost, hlinks, hheight⟩ := ih
      obtain ⟨⟨symbol, op⟩, hop⟩ : ∃ entry, entry ∈ level.operators := by
        cases level <;> exact ⟨_, List.mem_cons_self⟩
      have hone : Derives (.chain levels) 0 [⟨.number "1", 0⟩] (.number "1") :=
        .chain_of_unary levels (.unprefixed (.plain .number))
      refine ⟨_, _, _, ?_, .link (i := 0) hlinks hop hone, ?_⟩
      · omega
      · have hpos : 1 ≤ e'.height := by
          rw [height_eq_tallest]
          exact Nat.le_add_left ..
        simp only [height]
        omega

theorem exists_chain {c b : Nat} {ts : List Token} {e : Expr} (h : Derives .unary c ts e) (hc : c ≤ b)
    (levels : List Level) :
    ∃ cost ts' e', cost ≤ b ∧ Derives (.chain levels) cost ts' e' ∧ e'.height = e.height + levels.length * b := by
  induction levels with
  | nil => exact ⟨c, ts, e, hc, .tightest h, by simp⟩
  | cons level levels ih =>
      obtain ⟨cost, ts', e', hcost, hchain, hheight⟩ := ih
      obtain ⟨cost', ts'', e'', hcost', hlinks, hheight'⟩ := exists_links level hchain b
      refine ⟨cost', ts'', e'', by omega, .chain hlinks, ?_⟩
      rw [hheight', hheight, List.length_cons, Nat.succ_mul, Nat.add_assoc]

/-- With so many levels of nesting some tree is as tall as any may be. -/
theorem exists_tallest_expression (b : Nat) :
    ∃ cost ts e, cost ≤ b + 1 ∧ Derives .expression cost ts e ∧ e.height + 1 = 3 * (b + 1) ^ 2 := by
  have hone : ∀ i, Derives .primary 0 [⟨.number "1", i⟩] (.number "1") := fun _ => .number
  induction b with
  | zero =>
      have hcoalesce := Derives.unprefixed (.coalesce (i := 0) (hone 0) (hone 0))
      exact ⟨1, _, _, Nat.le_refl _, .expression (hcoalesce.chain_of_unary _), rfl⟩
  | succ b ih =>
      obtain ⟨cost, ts, e, hcost, hderives, hheight⟩ := ih
      have hcall : Derives .primary cost (⟨.call "abs", 0⟩ :: ⟨.leftParen, 0⟩ :: (ts ++ [⟨.rightParen, 0⟩]))
          (.call "abs" [e]) := .call (.last hderives)
      have hcoalesce := Derives.unprefixed (.coalesce (i := 0) hcall (hone 0))
      obtain ⟨cost', ts', e', hcost', hchain, hheight'⟩ :=
        exists_chain (b := b + 1) hcoalesce (by omega) Level.precedence
      have houtcome := (hone 0).of_primary
      refine ⟨_, _, _, ?_, .conditional (i := 0) (j := 0) hchain houtcome houtcome, ?_⟩
      · omega
      · have hsquare := square_succ (b + 1)
        simp only [height, tallest, ← Level.all_eq_precedence, Level.length_all] at hheight' ⊢
        omega

/-- The bound on the heights is reached. -/
theorem exists_parseExpr_tallest {left : Nat} (hleft : 0 < left) :
    ∃ tokens e, parseExpr left tokens = .ok (e, []) ∧ e.height = 3 * left ^ 2 - 1 := by
  obtain ⟨b, rfl⟩ := Nat.exists_eq_succ_of_ne_zero (Nat.ne_of_gt hleft)
  obtain ⟨cost, ts, e, hcost, hderives, hheight⟩ := exists_tallest_expression b
  exact ⟨ts, e, parseExpr_of_derives hderives hcost, Nat.eq_sub_of_add_eq hheight⟩

/-! ### Passes over a tree -/

section Passes

variable {α : Type} {body : (Expr → α) → Expr → α} {f : Expr → α} {e : Expr}

/-- What the body of a recursion says about a tree depends on what it is told about the direct parts only. -/
def AsksParts (body : (Expr → α) → Expr → α) : Prop :=
  ∀ (f g : Expr → α) (e : Expr), (∀ child ∈ e.children, f child = g child) → body f e = body g e

/-- The recursion with this body through so many levels of a tree, with anything at all said of what lies deeper. -/
def recurse (body : (Expr → α) → Expr → α) (deeper : Expr → α) : Nat → Expr → α
  | 0 => deeper
  | levels + 1 => body (recurse body deeper levels)

/-- A recursion goes no deeper than the tree. -/
theorem recurse_eq (hparts : AsksParts body) (hbody : ∀ e, f e = body f e) (deeper : Expr → α) {levels : Nat}
    (h : e.height ≤ levels) : recurse body deeper levels e = f e := by
  induction levels generalizing e with
  | zero =>
      rw [height_eq_tallest] at h
      exact absurd h (Nat.not_succ_le_zero _)
  | succ levels ih =>
      rw [recurse, hbody e]
      refine hparts _ _ _ fun child hchild => ih ?_
      rw [height_eq_tallest] at h
      exact Nat.le_trans (height_le_tallest hchild) (Nat.le_of_succ_le_succ h)

end Passes

/-- The check of a node and what is said of its parts. -/
def checkBody (policy : ExpressionPolicy) (f : Expr → Nat → Except Error Unit) (e : Expr) (depth : Nat) :
    Except Error Unit := do
  checkDepth policy depth
  checkNode policy e
  e.children.forM (f · (depth + 1))

/-- The lowering of a node with these texts of its parts. -/
def lowerBody (f : Expr → Except Error (List Char)) : Expr → Except Error (List Char)
  | .number text => .ok text.toList
  | .string text => .ok (Quoted.script text)
  | .bool b => .ok (if b then "true".toList else "false".toList)
  | .null => .ok "null".toList
  | .score => .ok "_score".toList
  | .param name => .ok ("params.".toList ++ name.toList)
  | .unary op operand => do
      let inner ← f operand
      return op.symbol.toList ++ if operand.isUnary then '(' :: inner ++ [')'] else inner
  | .binary op left right => do
      let left ← f left
      let right ← f right
      return '(' :: left ++ ' ' :: op.symbol.toList ++ ' ' :: right ++ [')']
  | .ternary cond yes no => do
      let cond ← f cond
      let yes ← f yes
      let no ← f no
      return '(' :: cond ++ " ? ".toList ++ yes ++ " : ".toList ++ no ++ [')']
  | .coalesce left right => do
      let left ← f left
      if maxScriptBytes / 2 < byteLength left then throw scriptTooLong
      let right ← f right
      return '(' :: left ++ " != null ? ".toList ++ left ++ " : ".toList ++ right ++ [')']
  | .call name args => do
      checkArity name args.length
      lowerCall name (← args.mapM f)

/-- The record of a node with these documents of its parts. -/
def documentBody (f : Expr → Json) : Expr → Json
  | .number text => node "number" [("value", .string text)]
  | .string text => node "string" [("value", .string text)]
  | .bool b => node "bool" [("value", .bool b)]
  | .null => node "null" []
  | .score => node "score" []
  | .param name => node "param" [("name", .string name)]
  | .unary op operand => node "unary" [("op", .string op.symbol), ("expr", f operand)]
  | .binary op left right => node "bin" [("op", .string op.symbol), ("left", f left), ("right", f right)]
  | .ternary cond yes no => node "ternary" [("cond", f cond), ("then", f yes), ("else", f no)]
  | .coalesce left right => node "coalesce" [("left", f left), ("right", f right)]
  | .call name args => node "call" [("name", .string name), ("args", .array (args.map f))]

theorem forM_congr {f g : Expr → Except Error Unit} {es : List Expr} (h : ∀ e ∈ es, f e = g e) :
    es.forM f = es.forM g := by
  induction es with
  | nil => rfl
  | cons e es ih =>
      obtain ⟨hfirst, hrest⟩ := List.forall_mem_cons.mp h
      show (f e >>= fun _ => es.forM f) = (g e >>= fun _ => es.forM g)
      rw [hfirst, ih hrest]

theorem mapM_congr {f g : Expr → Except Error (List Char)} {es : List Expr} (h : ∀ e ∈ es, f e = g e) :
    es.mapM f = es.mapM g := by
  induction es with
  | nil => rfl
  | cons e es ih =>
      obtain ⟨hfirst, hrest⟩ := List.forall_mem_cons.mp h
      rw [List.mapM_cons, List.mapM_cons, hfirst, ih hrest]

theorem asksParts_checkBody (policy : ExpressionPolicy) : AsksParts (checkBody policy) := by
  intro f g e h
  funext depth
  rw [checkBody, checkBody, forM_congr fun child hchild => congrFun (h child hchild) (depth + 1)]

theorem asksParts_lowerBody : AsksParts lowerBody := by
  intro f g e h
  cases e with
  | call name args =>
      have hargs : args.mapM f = args.mapM g := mapM_congr h
      rw [lowerBody, lowerBody, hargs]
  | _ => simp_all [lowerBody, children]

theorem asksParts_documentBody : AsksParts documentBody := by
  intro f g e h
  cases e with
  | call name args =>
      have hargs : args.map f = args.map g := List.map_congr_left h
      rw [documentBody, documentBody, hargs]
  | _ => simp_all [documentBody, children]

theorem checkFrom_eq_body (policy : ExpressionPolicy) (e : Expr) :
    (checkFrom policy · e) = checkBody policy (fun e depth => checkFrom policy depth e) e := by
  have hargs (depth : Nat) (args : List Expr) : checkArgs policy depth args = args.forM (checkFrom policy depth) := by
    induction args with
    | nil => rfl
    | cons arg args ih =>
        rw [checkArgs, ih]
        rfl
  funext depth
  rw [checkFrom_eq, hargs, checkBody]

theorem lower_eq_body (e : Expr) : lower e = lowerBody lower e := by
  have hargs (args : List Expr) : lowerAll args = args.mapM lower := by
    induction args with
    | nil => rfl
    | cons arg args ih => rw [lowerAll, List.mapM_cons, ih]
  cases e with
  | call name args => rw [lower, lowerBody, hargs]
  | _ => rw [lower, lowerBody]

theorem document_eq_body (e : Expr) : document e = documentBody document e := by
  cases e with
  | call name args => rw [document, documentBody, documents_eq_map]
  | _ => rfl

/-- The trees that are read are of limited height, with the square of the levels of nesting. Checking, lowering and
writing them out are recursions that need to go no deeper. -/
theorem heights_bounded :
    (∀ left tokens e rest, parseExpr left tokens = .ok (e, rest) → e.height ≤ 3 * left ^ 2 - 1) ∧
      ∀ tokens e, ofTokens tokens = .ok e →
        e.height ≤ 12287 ∧
          (∀ policy deeper, recurse (checkBody policy) deeper 12287 e 1 = check policy e) ∧
          (∀ deeper, recurse lowerBody deeper 12287 e = lower e) ∧
          ∀ deeper, recurse documentBody deeper 12287 e = document e := by
  refine ⟨fun left tokens e rest h => Nat.le_sub_one_of_lt (height_of_parseExpr h), fun tokens e h => ?_⟩
  have hlt : e.height < 3 * maxNesting ^ 2 := height_of_parseExpr (ofTokens_eq_ok.mp h)
  have hheight : e.height ≤ 12287 := Nat.le_of_lt_succ hlt
  refine ⟨hheight, fun policy deeper => ?_, fun deeper => ?_, fun deeper => ?_⟩
  · exact congrFun (recurse_eq (asksParts_checkBody policy) (checkFrom_eq_body policy) deeper hheight) 1
  · exact recurse_eq asksParts_lowerBody lower_eq_body deeper hheight
  · exact recurse_eq asksParts_documentBody document_eq_body deeper hheight

/-- Inside its one level of nesting, `1 ?? 2` is as tall as it may be. -/
theorem heights_bounded_coalesce :
    let tokens : List Token := [⟨.number "1", 0⟩, ⟨.op "??", 2⟩, ⟨.number "2", 5⟩]
    let e : Expr := .coalesce (.number "1") (.number "2")
    parseExpr 1 tokens = .ok (e, []) ∧ ofTokens tokens = .ok e ∧ e.height = 2 ∧ e.height ≤ 3 * 1 ^ 2 - 1 ∧
      ∀ deeper, recurse lowerBody deeper 12287 e = lower e := by
  have hsuffixed : Derives .suffixed 0 ([⟨.number "1", 0⟩] ++ ⟨.op "??", 2⟩ :: [⟨.number "2", 5⟩])
      (.coalesce (.number "1") (.number "2")) := .coalesce .number .number
  have hderives := Derives.expression (.chain_of_unary Level.precedence (.unprefixed hsuffixed))
  have hparsed := parseExpr_of_derives hderives (Nat.le_refl 1)
  have htree := ofTokens_eq_ok.mpr (parseExpr_of_derives hderives (by decide))
  exact ⟨hparsed, htree, rfl, heights_bounded.1 _ _ _ _ hparsed, (heights_bounded.2 _ _ htree).2.2.1⟩

end StampedPrograms.Expr
