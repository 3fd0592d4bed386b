import StampedPrograms.Expr.Compliance
import StampedPrograms.Proofs.Expr.Parser
import StampedPrograms.Proofs.Token.Lexer

/-!
Properties of all nodes of a tree: what the restrictions on expressions leave, and that the names and
numbers in a tree that was read from a source are spelled as names and numbers.
-/

namespace StampedPrograms.Expr

inductive Everywhere (P : Expr → Prop) : Expr → Prop where
  | node {e : Expr} (here : P e) (below : ∀ child ∈ e.children, Everywhere P child) : Everywhere P e

theorem Everywhere.and {P Q : Expr → Prop} {e : Expr} (hp : Everywhere P e) (hq : Everywhere Q e) :
    Everywhere (fun e => P e ∧ Q e) e := by
  induction hp with
  | node here _ ih =>
      cases hq with
      | node here' below' =>
          exact .node ⟨here, here'⟩ fun child hchild => ih child hchild (below' child hchild)

theorem sizeOf_lt_of_mem_children {e child : Expr} (h : child ∈ e.children) : sizeOf child < sizeOf e := by
  cases e with
  | unary op operand =>
      cases List.mem_singleton.mp h
      simp only [unary.sizeOf_spec]
      omega
  | binary op left right =>
      simp only [children, List.mem_cons, List.not_mem_nil, or_false] at h
      rcases h with rfl | rfl <;> simp only [binary.sizeOf_spec] <;> omega
  | ternary cond yes no =>
      simp only [children, List.mem_cons, List.not_mem_nil, or_false] at h
      rcases h with rfl | rfl | rfl <;> simp only [ternary.sizeOf_spec] <;> omega
  | coalesce left right =>
      simp only [children, List.mem_cons, List.not_mem_nil, or_false] at h
      rcases h with rfl | rfl <;> simp only [coalesce.sizeOf_spec] <;> omega
  | call name args =>
      have hlt : sizeOf child < sizeOf args := List.sizeOf_lt_of_mem h
      simp only [call.sizeOf_spec]
      omega
  | _ => exact absurd h List.not_mem_nil

/-- Induction over trees, with the property for all direct parts. -/
theorem induction_children {P : Expr → Prop} (step : ∀ e, (∀ child ∈ e.children, P child) → P e)
    (e : Expr) : P e :=
  step e fun child _hchild => induction_children step child
termination_by sizeOf e
decreasing_by exact sizeOf_lt_of_mem_children _hchild

/-! ### Restrictions -/

variable {policy : ExpressionPolicy} {depth : Nat} {e : Expr}

theorem checkDepth_eq_ok : checkDepth policy depth = .ok () ↔ depth ≤ policy.maxDepth.toNat := by
  rw [checkDepth]
  split
  · next h => exact iff_of_false (by rintro ⟨⟩) (Nat.not_le_of_lt h)
  · next h => exact iff_of_true rfl (Nat.le_of_not_lt h)

theorem checkField_eq_ok (call : String) {args : List Expr} :
    checkField policy call args = .ok () ↔
      ∀ first rest, args = first :: rest → ∃ field, first = .string field ∧ field ∈ policy.fields := by
  cases args with
  | nil => simp [checkField]
  | cons first rest => cases first <;> simp [checkField, ExpressionPolicy.allowsField]

/-- A node that neither is nor says what is forbidden, its parts apart. -/
def NodeCompliant (policy : ExpressionPolicy) : Expr → Prop
  | .call name args =>
      name ∈ ExpressionSymbols.allowedCalls ∧
        (name = "v" ∨ name = "exists" →
          ∀ first rest, args = first :: rest → ∃ field, first = .string field ∧ field ∈ policy.fields)
  | .param name => name ∈ policy.params
  | _ => True

theorem checkNode_eq_ok {n : Expr} : checkNode policy n = .ok () ↔ NodeCompliant policy n := by
  cases n with
  | call name args =>
      simp only [checkNode, NodeCompliant, ← checkField_eq_ok name]
      by_cases hname : name ∈ ExpressionSymbols.allowedCalls
      · by_cases hfield : name = "v" ∨ name = "exists" <;>
          simp [ExpressionSymbols.isAllowedCall, fieldCalls, hname, hfield]
      · simp [ExpressionSymbols.isAllowedCall, hname]
  | param name => simp [checkNode, NodeCompliant, ExpressionPolicy.allowsParam]
  | _ => exact iff_of_true rfl trivial

/-- A node is checked first, then its parts one level down. -/
theorem checkFrom_eq (policy : ExpressionPolicy) (depth : Nat) (e : Expr) :
    checkFrom policy depth e =
      (checkDepth policy depth >>= fun _ => checkNode policy e >>= fun _ =>
        checkArgs policy (depth + 1) e.children) := by
  have hlast (x : Except Error Unit) : (x >>= fun _ => .ok ()) = x := bind_pure_unit
  cases e <;> simp only [checkFrom, checkArgs, children, hlast, bind_pure_unit]

theorem checkNode_of_checkFrom (h : checkFrom policy depth e = .ok ()) : checkNode policy e = .ok () := by
  rw [checkFrom_eq, check_bind_eq_ok, check_bind_eq_ok] at h
  exact h.2.1

theorem checkArgs_of_checkFrom (h : checkFrom policy depth e = .ok ()) :
    checkArgs policy (depth + 1) e.children = .ok () := by
  rw [checkFrom_eq, check_bind_eq_ok, check_bind_eq_ok] at h
  exact h.2.2

theorem checkFrom_of_mem {args : List Expr} (h : checkArgs policy depth args = .ok ()) :
    ∀ arg ∈ args, checkFrom policy depth arg = .ok () := by
  induction args with
  | nil => simp
  | cons first args ih =>
      rw [checkArgs, bind_eq_ok] at h
      obtain ⟨⟨⟩, hfirst, hargs⟩ := h
      intro arg harg
      rcases List.mem_cons.mp harg with rfl | harg
      · exact hfirst
      · exact ih hargs arg harg

theorem everywhere_of_checkFrom (h : checkFrom policy depth e = .ok ()) :
    Everywhere (fun e => checkNode policy e = .ok ()) e := by
  induction e using induction_children generalizing depth with
  | step e ih =>
      have hchildren := checkFrom_of_mem (checkArgs_of_checkFrom h)
      exact .node (checkNode_of_checkFrom h) fun child hchild => ih child hchild (hchildren child hchild)

/-! ### Spelling -/

/-- The names and numbers of a node are spelled as names and numbers. -/
def Spelled : Expr → Prop
  | .number text => ∀ c ∈ text.toList, Token.isNumberPart c = true
  | .param name => Token.IsName name.toList
  | _ => True

/-- The trees in what the tokens of a symbol stand for. -/
def trees : (symbol : Symbol) → symbol.Tree → List Expr
  | .expression, e => [e]
  | .chain _, e => [e]
  | .links _ _ _, e => [e]
  | .unary, e => [e]
  | .suffixed, e => [e]
  | .primary, e => [e]
  | .arguments, args => args

theorem spelled_leaf {e : Expr} (h : Spelled e) (hchildren : e.children = []) : Everywhere Spelled e :=
  .node h fun child hchild => by
    rw [hchildren] at hchild
    cases hchild

theorem spelled_of_derives {symbol : Symbol} {c : Nat} {ts : List Token} {tree : symbol.Tree}
    (h : Derives symbol c ts tree) (hts : ∀ token ∈ ts, token.kind.Lexical) :
    ∀ e ∈ trees symbol tree, Everywhere Spelled e := by
  induction h with
  | expression _ ih => exact ih hts
  | tightest _ ih => exact ih hts
  | chain _ ih => exact ih hts
  | operand _ ih => exact ih hts
  | unprefixed _ ih => exact ih hts
  | plain _ ih => exact ih hts
  | last _ ih => exact ih hts
  | conditional _ _ _ ih ih₁ ih₂ =>
      simp only [List.mem_append, List.mem_cons, or_imp, forall_and] at hts
      obtain ⟨hcond, -, hyes, -, hno⟩ := hts
      simp only [trees, List.mem_singleton, forall_eq] at ih ih₁ ih₂ ⊢
      refine .node trivial ?_
      simpa [children] using ⟨ih hcond, ih₁ hyes, ih₂ hno⟩
  | link _ _ _ ih ih₁ =>
      simp only [List.mem_append, List.mem_cons, or_imp, forall_and] at hts
      obtain ⟨hleft, -, hright⟩ := hts
      simp only [trees, List.mem_singleton, forall_eq] at ih ih₁ ⊢
      refine .node trivial ?_
      simpa [children] using ⟨ih hleft, ih₁ hright⟩
  | coalesce _ _ ih ih₁ =>
      simp only [List.mem_append, List.mem_cons, or_imp, forall_and] at hts
      obtain ⟨hleft, -, hright⟩ := hts
      simp only [trees, List.mem_singleton, forall_eq] at ih ih₁ ⊢
      refine .node trivial ?_
      simpa [children] using ⟨ih hleft, ih₁ hright⟩
  | prefixed _ ih =>
      simp only [List.mem_cons, or_imp, forall_and] at hts
      simp only [trees, List.mem_singleton, forall_eq] at ih ⊢
      refine .node trivial ?_
      simpa [children] using ih hts.2
  | group _ ih =>
      simp only [List.mem_append, List.mem_cons, or_imp, forall_and] at hts
      exact ih hts.2.1
  | call _ ih =>
      simp only [List.mem_append, List.mem_cons, or_imp, forall_and] at hts
      simp only [trees, List.mem_singleton, forall_eq] at ih ⊢
      exact .node trivial (ih hts.2.2.1)
  | more _ _ ih ih₁ =>
      simp only [List.mem_append, List.mem_cons, or_imp, forall_and] at hts
      obtain ⟨hfirst, -, hothers⟩ := hts
      intro e he
      rcases List.mem_cons.mp he with rfl | he
      · exact ih hfirst e (List.mem_singleton_self e)
      · exact ih₁ hothers e he
  | @number text i =>
      have hspelled : Spelled (.number text) := hts _ (List.mem_singleton_self _)
      simpa [trees] using spelled_leaf hspelled rfl
  | @param name i j k =>
      have hspelled : Spelled (.param name) := hts ⟨.ident name, k⟩ (by simp)
      simpa [trees] using spelled_leaf hspelled rfl
  | constant =>
      have hleaf (name : String) : Everywhere Spelled (.call name []) := spelled_leaf trivial rfl
      simpa [trees] using hleaf _
  | _ =>
      simp only [trees, List.mem_singleton, forall_eq]
      exact spelled_leaf trivial rfl

theorem spelled_of_ofSource {source : String} {e : Expr} (h : ofSource source = .ok e) :
    Everywhere Spelled e := by
  rw [ofSource, bind_eq_ok] at h
  obtain ⟨tokens, htokens, htree⟩ := h
  rw [ofTokens_eq_ok] at htree
  obtain ⟨cost, used, -, rfl, hderives⟩ := parseExpr_sound htree
  rw [List.append_nil] at htokens
  exact spelled_of_derives hderives (Token.lexical_of_mem_tokensFrom htokens) e (List.mem_singleton_self e)

end StampedPrograms.Expr
