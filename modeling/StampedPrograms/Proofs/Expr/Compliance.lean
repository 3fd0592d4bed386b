import StampedPrograms.Proofs.Expr.Nodes

/-!
The trees that keep to the restrictions on expressions. The check is a walk over all nodes, each before its
parts, that stops at the first bad one. It accepts exactly the trees that are no taller than the depth and
whose calls, fields and parameters are all allowed, in whatever position they stand. It never comes to a node
that lies more than one level too deep, so the depth it counts stays small however deep the tree is.
-/

namespace StampedPrograms.Expr

/-! ### Trees -/

mutual

/-- The number of levels of a tree, of which a leaf has one. -/
def height : Expr → Nat
  | .unary _ operand => height operand + 1
  | .binary _ left right => max (height left) (height right) + 1
  | .ternary cond yes no => max (height cond) (max (height yes) (height no)) + 1
  | .coalesce left right => max (height left) (height right) + 1
  | .call _ args => tallest args + 1
  | _ => 1

def tallest : List Expr → Nat
  | [] => 0
  | arg :: args => max (height arg) (tallest args)

end

/-- The nodes of a tree by their positions. -/
inductive Within : Expr → Expr → Prop where
  | root (e : Expr) : Within e e
  | operand {n operand : Expr} (op : UnaryOp) (h : Within n operand) : Within n (.unary op operand)
  | left {n left : Expr} (op : BinaryOp) (h : Within n left) (right : Expr) :
      Within n (.binary op left right)
  | right {n right : Expr} (op : BinaryOp) (left : Expr) (h : Within n right) :
      Within n (.binary op left right)
  | cond {n cond : Expr} (h : Within n cond) (yes no : Expr) : Within n (.ternary cond yes no)
  | yes {n yes : Expr} (cond : Expr) (h : Within n yes) (no : Expr) : Within n (.ternary cond yes no)
  | no {n no : Expr} (cond yes : Expr) (h : Within n no) : Within n (.ternary cond yes no)
  | value {n left : Expr} (h : Within n left) (right : Expr) : Within n (.coalesce left right)
  | default {n right : Expr} (left : Expr) (h : Within n right) : Within n (.coalesce left right)
  | arg {n arg : Expr} {args : List Expr} (name : String) (harg : arg ∈ args) (h : Within n arg) :
      Within n (.call name args)

/-- A tree that keeps to the restrictions put on it. -/
structure Compliant (policy : ExpressionPolicy) (e : Expr) : Prop where
  height : e.height ≤ policy.maxDepth.toNat
  calls : ∀ name args, Within (.call name args) e → name ∈ ExpressionSymbols.allowedCalls
  fields : ∀ name first rest, Within (.call name (first :: rest)) e → name = "v" ∨ name = "exists" →
    ∃ field, first = .string field ∧ field ∈ policy.fields
  params : ∀ name, Within (.param name) e → name ∈ policy.params

theorem height_eq_tallest (e : Expr) : e.height = tallest e.children + 1 := by
  cases e <;> simp [height, tallest, children]

theorem height_le_tallest {arg : Expr} {args : List Expr} (h : arg ∈ args) : arg.height ≤ tallest args := by
  induction args with
  | nil => cases h
  | cons first args ih =>
      rw [tallest]
      rcases List.mem_cons.mp h with rfl | h
      · exact Nat.le_max_left ..
      · exact Nat.le_trans (ih h) (Nat.le_max_right ..)

theorem exists_tallest {args : List Expr} (h : args ≠ []) : ∃ arg ∈ args, arg.height = tallest args := by
  induction args with
  | nil => exact absurd rfl h
  | cons first args ih =>
      rw [tallest]
      by_cases hargs : tallest args ≤ first.height
      · exact ⟨first, List.mem_cons_self .., (Nat.max_eq_left hargs).symm⟩
      · have hne : args ≠ [] := by
          rintro rfl
          exact hargs (Nat.zero_le _)
        obtain ⟨arg, harg, htallest⟩ := ih hne
        exact ⟨arg, List.mem_cons_of_mem _ harg, by omega⟩

theorem Within.of_mem_children {n child e : Expr} (hchild : child ∈ e.children) (h : Within n child) :
    Within n e := by
  cases e with
  | unary op operand =>
      cases List.mem_singleton.mp hchild
      exact .operand op h
  | binary op left right =>
      simp only [children, List.mem_cons, List.not_mem_nil, or_false] at hchild
      rcases hchild with rfl | rfl
      · exact .left op h right
      · exact .right op left h
  | ternary cond yes no =>
      simp only [children, List.mem_cons, List.not_mem_nil, or_false] at hchild
      rcases hchild with rfl | rfl | rfl
      · exact .cond h yes no
      · exact .yes cond h no
      · exact .no cond yes h
  | coalesce left right =>
      simp only [children, List.mem_cons, List.not_mem_nil, or_false] at hchild
      rcases hchild with rfl | rfl
      · exact .value h right
      · exact .default left h
  | call name args => exact .arg name hchild h
  | _ => exact absurd hchild List.not_mem_nil

/-- A node is the root or lies in one of its direct parts. -/
theorem Within.cases_children {n e : Expr} (h : Within n e) : n = e ∨ ∃ child ∈ e.children, Within n child := by
  cases h with
  | root => exact .inl rfl
  | operand op h => exact .inr ⟨_, by simp [children], h⟩
  | left op h right => exact .inr ⟨_, by simp [children], h⟩
  | right op left h => exact .inr ⟨_, by simp [children], h⟩
  | cond h yes no => exact .inr ⟨_, by simp [children], h⟩
  | yes cond h no => exact .inr ⟨_, by simp [children], h⟩
  | no cond yes h => exact .inr ⟨_, by simp [children], h⟩
  | value h right => exact .inr ⟨_, by simp [children], h⟩
  | default left h => exact .inr ⟨_, by simp [children], h⟩
  | arg name harg h => exact .inr ⟨_, harg, h⟩

/-! ### The walk -/

mutual

/-- The nodes of a tree with their depths, each before its parts, from left to right. -/
def nodesFrom (depth : Nat) (e : Expr) : List (Nat × Expr) :=
  (depth, e) :: match e with
  | .unary _ operand => nodesFrom (depth + 1) operand
  | .binary _ left right => nodesFrom (depth + 1) left ++ nodesFrom (depth + 1) right
  | .ternary cond yes no =>
      nodesFrom (depth + 1) cond ++ (nodesFrom (depth + 1) yes ++ nodesFrom (depth + 1) no)
  | .coalesce left right => nodesFrom (depth + 1) left ++ nodesFrom (depth + 1) right
  | .call _ args => nodesOfAll (depth + 1) args
  | _ => []

def nodesOfAll (depth : Nat) : List Expr → List (Nat × Expr)
  | [] => []
  | arg :: args => nodesFrom depth arg ++ nodesOfAll depth args

end

/-- What is checked of a node at its depth. -/
def visit (policy : ExpressionPolicy) (node : Nat × Expr) : Except Error Unit := do
  checkDepth policy node.1
  checkNode policy node.2

/-- The nodes that a walk comes to: all up to the first bad one. -/
def reached (policy : ExpressionPolicy) : List (Nat × Expr) → List (Nat × Expr)
  | [] => []
  | node :: nodes =>
      node :: match visit policy node with
        | .ok () => reached policy nodes
        | .error _ => []

variable {policy : ExpressionPolicy} {depth : Nat} {e : Expr}

theorem nodesFrom_eq (depth : Nat) (e : Expr) :
    nodesFrom depth e = (depth, e) :: nodesOfAll (depth + 1) e.children := by
  cases e <;> simp [nodesFrom, nodesOfAll, children]

theorem mem_nodesOfAll {node : Nat × Expr} {args : List Expr} :
    node ∈ nodesOfAll depth args ↔ ∃ arg ∈ args, node ∈ nodesFrom depth arg := by
  induction args with
  | nil => simp [nodesOfAll]
  | cons arg args ih => simp [nodesOfAll, ih]

/-- The check of a tree is the check of its nodes one by one. -/
theorem checkFrom_eq_forM (policy : ExpressionPolicy) (depth : Nat) (e : Expr) :
    checkFrom policy depth e = (nodesFrom depth e).forM (visit policy) := by
  induction e using induction_children generalizing depth with
  | step e ih =>
      have hargs (args : List Expr) (h : ∀ arg ∈ args, arg ∈ e.children) :
          checkArgs policy (depth + 1) args = (nodesOfAll (depth + 1) args).forM (visit policy) := by
        induction args with
        | nil => rfl
        | cons arg args ihargs =>
            obtain ⟨harg, hrest⟩ := List.forall_mem_cons.mp h
            rw [checkArgs, nodesOfAll, ih arg harg, ihargs hrest]
            exact List.forM_append.symm
      rw [checkFrom_eq, nodesFrom_eq, hargs e.children fun _ => id]
      exact (bind_assoc ..).symm

theorem within_iff (depth : Nat) {n e : Expr} : Within n e ↔ ∃ d, (d, n) ∈ nodesFrom depth e := by
  induction e using induction_children generalizing depth with
  | step e ih =>
      constructor
      · intro h
        rcases h.cases_children with rfl | ⟨child, hchild, h⟩
        · exact ⟨depth, by simp [nodesFrom_eq]⟩
        · obtain ⟨d, hd⟩ := (ih child hchild (depth + 1)).mp h
          refine ⟨d, ?_⟩
          rw [nodesFrom_eq]
          exact List.mem_cons_of_mem _ (mem_nodesOfAll.mpr ⟨child, hchild, hd⟩)
      · rintro ⟨d, hd⟩
        rw [nodesFrom_eq] at hd
        rcases List.mem_cons.mp hd with hroot | hd
        · cases hroot
          exact .root _
        · obtain ⟨child, hchild, hd⟩ := mem_nodesOfAll.mp hd
          exact .of_mem_children hchild ((ih child hchild (depth + 1)).mpr ⟨d, hd⟩)

theorem lt_of_mem_nodesFrom {node : Nat × Expr} (h : node ∈ nodesFrom depth e) :
    node.1 < depth + e.height := by
  induction e using induction_children generalizing depth with
  | step e ih =>
      rw [height_eq_tallest]
      rw [nodesFrom_eq] at h
      rcases List.mem_cons.mp h with rfl | h
      · exact Nat.lt_add_of_pos_right (Nat.succ_pos _)
      · obtain ⟨child, hchild, h⟩ := mem_nodesOfAll.mp h
        have hnode := ih child hchild h
        have hheight := height_le_tallest hchild
        omega

/-- Some node lies as deep as the tree is tall. -/
theorem exists_deepest (depth : Nat) (e : Expr) :
    ∃ node ∈ nodesFrom depth e, node.1 + 1 = depth + e.height := by
  induction e using induction_children generalizing depth with
  | step e ih =>
      rw [height_eq_tallest, nodesFrom_eq]
      by_cases hleaf : e.children = []
      · exact ⟨(depth, e), List.mem_cons_self .., by rw [hleaf, tallest]⟩
      · obtain ⟨child, hchild, htallest⟩ := exists_tallest hleaf
        obtain ⟨node, hnode, hdepth⟩ := ih child hchild (depth + 1)
        refine ⟨node, List.mem_cons_of_mem _ (mem_nodesOfAll.mpr ⟨child, hchild, hnode⟩), ?_⟩
        omega

/-! ### What the walk accepts -/

theorem compliant_iff :
    Compliant policy e ↔ e.height ≤ policy.maxDepth.toNat ∧ ∀ n, Within n e → NodeCompliant policy n := by
  constructor
  · intro h
    refine ⟨h.height, fun n hn => ?_⟩
    cases n with
    | call name args =>
        refine ⟨h.calls name args hn, ?_⟩
        rintro hfield first rest rfl
        exact h.fields name first rest hn hfield
    | param name => exact h.params name hn
    | _ => trivial
  · rintro ⟨hheight, hnodes⟩
    exact {
      height := hheight
      calls := fun _ _ hn => (hnodes _ hn).1
      fields := fun _ first rest hn hfield => (hnodes _ hn).2 hfield first rest rfl
      params := fun _ hn => hnodes _ hn }

theorem visit_eq_ok {node : Nat × Expr} :
    visit policy node = .ok () ↔ node.1 ≤ policy.maxDepth.toNat ∧ NodeCompliant policy node.2 := by
  rw [visit, check_bind_eq_ok, checkDepth_eq_ok, checkNode_eq_ok]

theorem checkFrom_eq_ok :
    checkFrom policy depth e = .ok () ↔
      depth + e.height ≤ policy.maxDepth.toNat + 1 ∧ ∀ n, Within n e → NodeCompliant policy n := by
  rw [checkFrom_eq_forM, forM_eq_ok]
  simp only [visit_eq_ok]
  constructor
  · intro h
    obtain ⟨node, hnode, hdepth⟩ := exists_deepest depth e
    have hbound := (h node hnode).1
    refine ⟨by omega, fun n hn => ?_⟩
    obtain ⟨d, hd⟩ := (within_iff depth).mp hn
    exact (h (d, n) hd).2
  · rintro ⟨hheight, hnodes⟩ ⟨d, n⟩ hd
    have hbound := lt_of_mem_nodesFrom hd
    exact ⟨by omega, hnodes n ((within_iff depth).mpr ⟨d, hd⟩)⟩

/-! ### How far the walk goes -/

/-- What the walk does not come to plays no part in its answer. -/
theorem forM_reached (policy : ExpressionPolicy) (nodes : List (Nat × Expr)) :
    (reached policy nodes).forM (visit policy) = nodes.forM (visit policy) := by
  induction nodes with
  | nil => rfl
  | cons node nodes ih =>
      rw [reached]
      cases hnode : visit policy node with
      | error error =>
          show (visit policy node >>= fun _ => pure ()) = (visit policy node >>= fun _ => nodes.forM (visit policy))
          rw [hnode]
          rfl
      | ok =>
          show (visit policy node >>= fun _ => (reached policy nodes).forM (visit policy)) =
            (visit policy node >>= fun _ => nodes.forM (visit policy))
          rw [ih]

/-- The second part of a walk is entered only where the first part is good. -/
theorem mem_reached_append {node : Nat × Expr} {first second : List (Nat × Expr)}
    (h : node ∈ reached policy (first ++ second)) :
    node ∈ reached policy first ∨ node ∈ reached policy second := by
  induction first with
  | nil => exact .inr h
  | cons next first ih =>
      rw [List.cons_append, reached] at h
      rw [reached]
      rcases List.mem_cons.mp h with rfl | h
      · exact .inl (List.mem_cons_self ..)
      · cases hnext : visit policy next with
        | error error =>
            rw [hnext] at h
            cases h
        | ok =>
            rw [hnext] at h
            exact (ih h).imp_left (List.mem_cons_of_mem _)

theorem mem_reached_nodesOfAll {node : Nat × Expr} {args : List Expr}
    (h : node ∈ reached policy (nodesOfAll depth args)) :
    ∃ arg ∈ args, node ∈ reached policy (nodesFrom depth arg) := by
  induction args with
  | nil => cases h
  | cons arg args ih =>
      rw [nodesOfAll] at h
      rcases mem_reached_append h with h | h
      · exact ⟨arg, List.mem_cons_self .., h⟩
      · obtain ⟨arg', harg', h⟩ := ih h
        exact ⟨arg', List.mem_cons_of_mem _ harg', h⟩

/-- The parts of a node are entered only where the node itself is not too deep. -/
theorem depth_le_of_reached {node : Nat × Expr} (hdepth : depth ≤ policy.maxDepth.toNat + 1)
    (h : node ∈ reached policy (nodesFrom depth e)) : node.1 ≤ policy.maxDepth.toNat + 1 := by
  induction e using induction_children generalizing depth with
  | step e ih =>
      rw [nodesFrom_eq, reached] at h
      rcases List.mem_cons.mp h with rfl | h
      · exact hdepth
      · cases hroot : visit policy (depth, e) with
        | error error =>
            rw [hroot] at h
            cases h
        | ok =>
            rw [hroot] at h
            have hparts : depth + 1 ≤ policy.maxDepth.toNat + 1 := Nat.succ_le_succ (visit_eq_ok.mp hroot).1
            obtain ⟨child, hchild, h⟩ := mem_reached_nodesOfAll h
            exact ih child hchild hparts h

/-- The check accepts exactly the compliant trees. It is decided by the nodes that the walk comes to, and
their depths are at most one above the limit, so they fit into the 32 bits of the counter. -/
theorem check_exact (policy : ExpressionPolicy) (e : Expr)
    (hlimit : policy.maxDepth.toNat ≤ maxDepthLimit) :
    (check policy e = .ok () ↔ Compliant policy e) ∧
      check policy e = (reached policy (nodesFrom 1 e)).forM (visit policy) ∧
      ∀ node ∈ reached policy (nodesFrom 1 e),
        node.1 ≤ policy.maxDepth.toNat + 1 ∧ node.1 < UInt32.size := by
  refine ⟨?_, ?_, fun node hnode => ?_⟩
  · rw [check, checkFrom_eq_ok, compliant_iff, Nat.add_comm 1, Nat.succ_le_succ_iff]
  · rw [check, checkFrom_eq_forM, forM_reached]
  · have hbound := depth_le_of_reached (Nat.succ_le_succ (Nat.zero_le _)) hnode
    have hsize : maxDepthLimit + 1 < UInt32.size := by decide
    exact ⟨hbound, by omega⟩

/-- The price, or the default where there is none. -/
def priceOr (default : Expr) : Expr :=
  .call "v" [.string "price", default]

/-- A default is held to the same restrictions, and of one that lies too deep only its root is looked at. -/
theorem check_exact_priceOr :
    let policy : ExpressionPolicy := ⟨2, ["price"], ["rate"]⟩
    policy.maxDepth.toNat ≤ maxDepthLimit ∧
      Compliant policy (priceOr (.param "rate")) ∧
      ¬ Compliant policy (priceOr (.param "other")) ∧
      ¬ Compliant policy (priceOr (.unary .neg (.unary .neg .score))) ∧
      (reached policy (nodesFrom 1 (priceOr (.unary .neg (.unary .neg .score))))).map Prod.fst = [1, 2, 2, 3] := by
  have hlimit : (2 : UInt32).toNat ≤ maxDepthLimit := by decide
  have accepts (e : Expr) := (check_exact ⟨2, ["price"], ["rate"]⟩ e hlimit).1
  refine ⟨hlimit, (accepts _).mp ?_, mt (accepts _).mpr ?_, mt (accepts _).mpr ?_, ?_⟩
  · rfl
  · rintro ⟨⟩
  · rintro ⟨⟩
  · rfl

end StampedPrograms.Expr
