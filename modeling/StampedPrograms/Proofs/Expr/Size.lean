import Mathlib.Algebra.GroupWithZero.Nat
import Mathlib.Algebra.Order.BigOperators.Group.List
import Mathlib.Algebra.Order.Group.Nat
import StampedPrograms.Proofs.Expr.Calls

/-!
The size of scripts. A text contains the texts of all parts of its tree, so a coalescing is given up early only
where the script would have been too long in the end. The only text that is written twice is short, and the
only one that is written three times is a literal, so no text outgrows its tree.
-/

namespace StampedPrograms

theorem byteLength_intercalate (texts : List (List Char)) :
    byteLength (List.intercalate [',', ' '] texts) = (texts.map byteLength).sum + 2 * (texts.length - 1) := by
  induction texts with
  | nil => rfl
  | cons text texts ih =>
      cases texts with
      | nil => simp
      | cons next texts =>
          have hsep : byteLength [',', ' '] = 2 := rfl
          rw [List.intercalate_cons_cons, byteLength_append, byteLength_append, ih, hsep]
          simp only [List.map_cons, List.sum_cons, List.length_cons]
          omega

namespace Quoted

theorem byteLength_scriptChar_le (c : Char) : byteLength (scriptChar c) ≤ 2 * c.utf8Size := by
  have hpos := c.utf8Size_pos
  have hslash : '\\'.utf8Size = 1 := rfl
  unfold scriptChar
  split
  · simp only [byteLength_cons, byteLength_nil]
    omega
  · simp only [byteLength_cons, byteLength_nil]
    omega

theorem byteLength_script_le (s : String) : byteLength (script s) ≤ 2 * byteLength s.toList + 2 := by
  have hbody (cs : List Char) : byteLength (cs.flatMap scriptChar) ≤ 2 * byteLength cs := by
    induction cs with
    | nil => exact Nat.le_refl _
    | cons c cs ih =>
        have hc := byteLength_scriptChar_le c
        rw [List.flatMap_cons, byteLength_append, byteLength_cons]
        omega
  have hquote : '\''.utf8Size = 1 := rfl
  have hs := hbody s.toList
  simp only [script, byteLength_cons, byteLength_append, byteLength_nil]
  omega

end Quoted

namespace Expr

open ExpressionSymbols (v1)

/-! ### Texts of calls -/

theorem utf8Size_parens : '('.utf8Size = 1 ∧ ')'.utf8Size = 1 :=
  ⟨rfl, rfl⟩

theorem byteLength_libraryCall (name : String) (texts : List (List Char)) :
    byteLength (libraryCall name texts) =
      byteLength name.toList + (texts.map byteLength).sum + 2 * (texts.length - 1) + 7 := by
  have hprefix : byteLength "Math.".toList = 5 := by decide
  have hparen := utf8Size_parens
  unfold libraryCall
  simp only [byteLength_append, byteLength_cons, byteLength_nil, byteLength_intercalate]
  omega

theorem byteLength_presence (field : List Char) : byteLength (presence field) = 2 * byteLength field + 33 := by
  have hkey : byteLength "doc.containsKey(".toList = 16 := by decide
  have hand : byteLength ") && !doc[".toList = 10 := by decide
  have hempty : byteLength "].empty".toList = 7 := by decide
  unfold presence
  simp only [byteLength_append]
  omega

theorem byteLength_fieldValue (field default : List Char) :
    byteLength (fieldValue field default) = 3 * byteLength field + byteLength default + 52 := by
  have hcond : byteLength " ? doc[".toList = 7 := by decide
  have hvalue : byteLength "].value : ".toList = 10 := by decide
  have hparen := utf8Size_parens
  unfold fieldValue
  simp only [byteLength_append, byteLength_cons, byteLength_nil, byteLength_presence]
  omega

variable {name : String} {texts : List (List Char)} {text : List Char}

/-- No argument of a call is lost. -/
theorem CallText.sum_le (h : CallText name texts text) (hcount : checkArity name texts.length = .ok ()) :
    (texts.map byteLength).sum ≤ byteLength text := by
  cases h with
  | value field =>
      rw [byteLength_fieldValue, List.map_singleton, List.sum_singleton]
      omega
  | valueOr field default others =>
      have hnone : others = [] := by
        have hspec : v1.call? "v" = some _ := rfl
        rcases checkArity_of_call? hspec (field :: default :: others).length with ⟨hallows, -⟩ | ⟨-, h⟩
        · have hmax : others.length + 2 ≤ 2 := hallows.2
          exact List.length_eq_zero_iff.mp (by omega)
        · rw [hcount] at h
          cases h
      subst hnone
      rw [byteLength_fieldValue, List.map_cons, List.map_singleton, List.sum_cons, List.sum_singleton]
      omega
  | presence field =>
      simp only [byteLength_append, byteLength_cons, byteLength_presence, List.map_singleton, List.sum_singleton]
      omega
  | clamp x lo hi =>
      simp only [byteLength_libraryCall, List.map_cons, List.map_nil, List.sum_cons, List.sum_nil]
      omega
  | binary _ left right =>
      rw [byteLength_libraryCall]
      omega
  | unary _ x =>
      rw [byteLength_libraryCall]
      omega

/-! ### The guard of coalescings -/

mutual

/-- The text of a tree, however long it is. -/
def lowerUnbounded : Expr → Except Error (List Char)
  | .number text => .ok text.toList
  | .string text => .ok (Quoted.script text)
  | .bool b => .ok (if b then "true".toList else "false".toList)
  | .null => .ok "null".toList
  | .score => .ok "_score".toList
  | .param name => .ok ("params.".toList ++ name.toList)
  | .unary op operand => do
      let inner ← lowerUnbounded operand
      return op.symbol.toList ++ if operand.isUnary then '(' :: inner ++ [')'] else inner
  | .binary op left right => do
      let left ← lowerUnbounded left
      let right ← lowerUnbounded right
      return '(' :: left ++ ' ' :: op.symbol.toList ++ ' ' :: right ++ [')']
  | .ternary cond yes no => do
      let cond ← lowerUnbounded cond
      let yes ← lowerUnbounded yes
      let no ← lowerUnbounded no
      return '(' :: cond ++ " ? ".toList ++ yes ++ " : ".toList ++ no ++ [')']
  | .coalesce left right => do
      let left ← lowerUnbounded left
      let right ← lowerUnbounded right
      return '(' :: left ++ " != null ? ".toList ++ left ++ " : ".toList ++ right ++ [')']
  | .call name args => do
      checkArity name args.length
      lowerCall name (← lowerAllUnbounded args)

def lowerAllUnbounded : List Expr → Except Error (List (List Char))
  | [] => .ok []
  | e :: es => do
      let text ← lowerUnbounded e
      let texts ← lowerAllUnbounded es
      return text :: texts

end

variable {e child : Expr} {part : List Char}

theorem length_of_lowerAllUnbounded {es : List Expr} (h : lowerAllUnbounded es = .ok texts) :
    texts.length = es.length := by
  induction es generalizing texts with
  | nil =>
      cases h
      rfl
  | cons e es ih =>
      simp only [lowerAllUnbounded, bind_eq_ok] at h
      obtain ⟨text, -, others, hothers, h⟩ := h
      cases h
      rw [List.length_cons, List.length_cons, ih hothers]

theorem mem_of_lowerAllUnbounded {es : List Expr} (h : lowerAllUnbounded es = .ok texts) (he : e ∈ es)
    (htext : lowerUnbounded e = .ok text) : text ∈ texts := by
  induction es generalizing texts with
  | nil => cases he
  | cons first es ih =>
      simp only [lowerAllUnbounded, bind_eq_ok] at h
      obtain ⟨firstText, hfirst, others, hothers, h⟩ := h
      cases h
      rcases List.mem_cons.mp he with rfl | he
      · cases hfirst.symm.trans htext
        exact List.mem_cons_self ..
      · exact List.mem_cons_of_mem _ (ih hothers he)

/-- Whatever a tree is, its text contains the texts of its parts. -/
theorem byteLength_le_of_mem_children (h : lowerUnbounded e = .ok text) (hchild : child ∈ e.children)
    (hpart : lowerUnbounded child = .ok part) : byteLength part ≤ byteLength text := by
  cases e with
  | unary op operand =>
      simp only [lowerUnbounded, bind_eq_ok] at h
      obtain ⟨inner, hinner, h⟩ := h
      cases h
      cases List.mem_singleton.mp hchild
      cases hinner.symm.trans hpart
      split <;> simp only [byteLength_append, byteLength_cons] <;> omega
  | binary op left right =>
      simp only [lowerUnbounded, bind_eq_ok] at h
      obtain ⟨leftText, hleft, rightText, hright, h⟩ := h
      cases h
      simp only [children, List.mem_cons, List.not_mem_nil, or_false] at hchild
      simp only [byteLength_append, byteLength_cons]
      rcases hchild with rfl | rfl
      · cases hleft.symm.trans hpart
        omega
      · cases hright.symm.trans hpart
        omega
  | ternary cond yes no =>
      simp only [lowerUnbounded, bind_eq_ok] at h
      obtain ⟨condText, hcond, yesText, hyes, noText, hno, h⟩ := h
      cases h
      simp only [children, List.mem_cons, List.not_mem_nil, or_false] at hchild
      simp only [byteLength_append, byteLength_cons]
      rcases hchild with rfl | rfl | rfl
      · cases hcond.symm.trans hpart
        omega
      · cases hyes.symm.trans hpart
        omega
      · cases hno.symm.trans hpart
        omega
  | coalesce left right =>
      simp only [lowerUnbounded, bind_eq_ok] at h
      obtain ⟨leftText, hleft, rightText, hright, h⟩ := h
      cases h
      simp only [children, List.mem_cons, List.not_mem_nil, or_false] at hchild
      simp only [byteLength_append, byteLength_cons]
      rcases hchild with rfl | rfl
      · cases hleft.symm.trans hpart
        omega
      · cases hright.symm.trans hpart
        omega
  | call name args =>
      simp only [lowerUnbounded, bind_eq_ok] at h
      obtain ⟨_, hcount, texts, htexts, h⟩ := h
      have hsum := (lowerCall_eq_ok.mp h).sum_le (length_of_lowerAllUnbounded htexts ▸ hcount)
      have hmem := List.mem_map_of_mem (f := byteLength) (mem_of_lowerAllUnbounded htexts hchild hpart)
      exact Nat.le_trans (List.le_sum_of_mem hmem) hsum
  | _ => cases hchild

/-- A text that fits into no script. -/
def TooLong (text : List Char) : Prop :=
  maxScriptBytes < byteLength text

/-- A computation is the same with a guard, or it is given up, but only where all that it brings is too long. -/
def Guarded {α : Type} (long : α → Prop) (full guarded : Except Error α) : Prop :=
  guarded = full ∨ guarded = .error scriptTooLong ∧ ∀ a, full = .ok a → long a

section Guard

variable {α β : Type} {long : α → Prop} {long' : β → Prop} {full guarded : Except Error α}
  {f g : α → Except Error β}

theorem Guarded.same : Guarded long full full :=
  .inl rfl

theorem Guarded.bind (h : Guarded long full guarded)
    (hnext : ∀ a, full = .ok a → Guarded long' (f a) (g a))
    (hlong : ∀ a b, full = .ok a → f a = .ok b → long a → long' b) :
    Guarded long' (full >>= f) (guarded >>= g) := by
  rcases h with rfl | ⟨rfl, h⟩
  · cases hfull : guarded with
    | error error => exact .same
    | ok a => exact hnext a hfull
  · refine .inr ⟨rfl, fun b hb => ?_⟩
    obtain ⟨a, ha, hb⟩ := bind_eq_ok.mp hb
    exact hlong a b ha hb (h a ha)

end Guard

theorem guarded_lowerAll {es : List Expr} (h : ∀ e ∈ es, Guarded TooLong (lowerUnbounded e) (lower e)) :
    Guarded (fun _ => ∃ e ∈ es, ∃ part, lowerUnbounded e = .ok part ∧ TooLong part)
      (lowerAllUnbounded es) (lowerAll es) := by
  induction es with
  | nil => exact .same
  | cons e es ih =>
      obtain ⟨he, hes⟩ := List.forall_mem_cons.mp h
      rw [lowerAllUnbounded, lowerAll]
      refine he.bind (fun text _ => (ih hes).bind (fun texts _ => .same) ?_) ?_
      · rintro _ _ - - ⟨long, hmem, hlong⟩
        exact ⟨long, List.mem_cons_of_mem _ hmem, hlong⟩
      · intro text _ htext _ hlong
        exact ⟨e, List.mem_cons_self .., text, htext, hlong⟩

/-- The guard in a coalescing gives up no text that is short enough. -/
theorem guarded_lower (e : Expr) : Guarded TooLong (lowerUnbounded e) (lower e) := by
  induction e using induction_children with
  | step e ih =>
      have hkept {child : Expr} {part text : List Char} (hchild : child ∈ e.children)
          (hpart : lowerUnbounded child = .ok part) (htext : lowerUnbounded e = .ok text)
          (hlong : TooLong part) : TooLong text :=
        Nat.lt_of_lt_of_le hlong (byteLength_le_of_mem_children htext hchild hpart)
      cases e with
      | unary op operand =>
          have hoperand := ih operand (by simp [children])
          rw [lowerUnbounded, lower]
          refine hoperand.bind (fun inner _ => .same) fun inner text hinner h => ?_
          exact hkept (by simp [children]) hinner (bind_eq_ok.mpr ⟨inner, hinner, h⟩)
      | binary op left right =>
          have hleft := ih left (by simp [children])
          have hright := ih right (by simp [children])
          rw [lowerUnbounded, lower]
          refine hleft.bind (fun leftText hl => hright.bind (fun rightText _ => .same) ?_) ?_
          · intro rightText text hr h
            exact hkept (by simp [children]) hr (bind_eq_ok.mpr ⟨_, hl, bind_eq_ok.mpr ⟨_, hr, h⟩⟩)
          · intro leftText text hl h
            exact hkept (by simp [children]) hl (bind_eq_ok.mpr ⟨_, hl, h⟩)
      | ternary cond yes no =>
          have hcond := ih cond (by simp [children])
          have hyes := ih yes (by simp [children])
          have hno := ih no (by simp [children])
          rw [lowerUnbounded, lower]
          refine hcond.bind (fun condText hc =>
            hyes.bind (fun yesText hy => hno.bind (fun noText _ => .same) ?_) ?_) ?_
          · intro noText text hn h
            exact hkept (by simp [children]) hn
              (bind_eq_ok.mpr ⟨_, hc, bind_eq_ok.mpr ⟨_, hy, bind_eq_ok.mpr ⟨_, hn, h⟩⟩⟩)
          · intro yesText text hy h
            exact hkept (by simp [children]) hy (bind_eq_ok.mpr ⟨_, hc, bind_eq_ok.mpr ⟨_, hy, h⟩⟩)
          · intro condText text hc h
            exact hkept (by simp [children]) hc (bind_eq_ok.mpr ⟨_, hc, h⟩)
      | coalesce left right =>
          have hleft := ih left (by simp [children])
          have hright := ih right (by simp [children])
          rw [lowerUnbounded, lower]
          refine hleft.bind (fun leftText hl => ?_) fun leftText text hl h => ?_
          · split
            · next hhalf =>
                -- written twice, more than half a script is more than a script
                refine .inr ⟨rfl, fun text h => ?_⟩
                obtain ⟨rightText, -, h⟩ := bind_eq_ok.mp h
                cases h
                have hmax : maxScriptBytes = 65535 := rfl
                simp only [TooLong, byteLength_append, byteLength_cons]
                omega
            · refine hright.bind (fun rightText _ => .same) fun rightText text hr h => ?_
              exact hkept (by simp [children]) hr (bind_eq_ok.mpr ⟨_, hl, bind_eq_ok.mpr ⟨_, hr, h⟩⟩)
          · exact hkept (by simp [children]) hl (bind_eq_ok.mpr ⟨_, hl, h⟩)
      | call name args =>
          rw [lowerUnbounded, lower]
          have harity : Guarded (fun _ => False) (checkArity name args.length) _ := .same
          refine harity.bind (fun _ hcount => ?_) fun _ _ _ _ h => h.elim
          refine (guarded_lowerAll ih).bind (fun texts _ => .same) ?_
          rintro texts text htexts h ⟨arg, harg, part, hpart, hlong⟩
          exact hkept harg hpart (bind_eq_ok.mpr ⟨_, hcount, bind_eq_ok.mpr ⟨_, htexts, h⟩⟩) hlong
      | _ => exact .same

/-- The script around a text, whatever its length. -/
def scriptOf (text : List Char) : List Char :=
  "return ".toList ++ text ++ [';']

theorem byteLength_scriptOf (text : List Char) : byteLength (scriptOf text) = byteLength text + 8 := by
  have hreturn : byteLength "return ".toList = 7 := by decide
  have hend : ';'.utf8Size = 1 := rfl
  unfold scriptOf
  simp only [byteLength_append, byteLength_cons, byteLength_nil]
  omega

theorem script_of_lower (h : lower e = .ok text) :
    script e =
      if maxScriptBytes < byteLength (scriptOf text) then .error scriptTooLong else .ok (scriptOf text) := by
  rw [script, h]
  rfl

theorem script_of_error {error : Error} (h : lower e = .error error) : script e = .error error := by
  rw [script, h]
  rfl

/-- A tree has a script exactly if its text fits into one, and is refused for its length where the text does not
fit, whatever was given up on the way. -/
theorem script_exact (e : Expr) :
    (∀ s, script e = .ok s ↔
      ∃ text, lowerUnbounded e = .ok text ∧ s = scriptOf text ∧ byteLength s ≤ maxScriptBytes) ∧
    ∀ text, lowerUnbounded e = .ok text → maxScriptBytes < byteLength (scriptOf text) →
      script e = .error scriptTooLong := by
  rcases guarded_lower e with hsame | ⟨hgiven, hlong⟩
  · rw [← hsame]
    refine ⟨fun s => ⟨fun h => ?_, ?_⟩, fun text htext hlong => ?_⟩
    · cases htext : lower e with
      | error error =>
          rw [script_of_error htext] at h
          cases h
      | ok text =>
          rw [script_of_lower htext] at h
          split at h
          · cases h
          · next hfits =>
              cases h
              exact ⟨text, rfl, rfl, Nat.le_of_not_lt hfits⟩
    · rintro ⟨text, htext, rfl, hfits⟩
      rw [script_of_lower htext, if_neg (Nat.not_lt_of_le hfits)]
    · rw [script_of_lower htext, if_pos hlong]
  · have hscript := script_of_error hgiven
    refine ⟨fun s => ⟨fun h => ?_, ?_⟩, fun _ _ _ => hscript⟩
    · rw [hscript] at h
      cases h
    · rintro ⟨text, htext, rfl, hfits⟩
      have htoo : maxScriptBytes < byteLength text := hlong text htext
      rw [byteLength_scriptOf] at hfits
      omega

/-- A number of so many digits, or null. -/
def sevensOrNull (count : Nat) : Expr :=
  .coalesce (.number (String.ofList (List.replicate count '7'))) .null

theorem byteLength_sevens (count : Nat) : byteLength (List.replicate count '7') = count := by
  induction count with
  | zero => rfl
  | succ count ih =>
      have hdigit : '7'.utf8Size = 1 := rfl
      rw [List.replicate_succ, byteLength_cons, ih, hdigit, Nat.add_comm]

theorem lowerUnbounded_sevensOrNull (count : Nat) :
    ∃ text, lowerUnbounded (sevensOrNull count) = .ok text ∧ byteLength text = 2 * count + 20 := by
  have hsevens := byteLength_sevens count
  have hjoint : byteLength " != null ? ".toList = 11 ∧ byteLength " : ".toList = 3 := by decide
  have hnull : byteLength "null".toList = 4 := by decide
  have hparen := utf8Size_parens
  rw [sevensOrNull, lowerUnbounded, lowerUnbounded, lowerUnbounded, ok_bind, ok_bind, String.toList_ofList]
  refine ⟨_, rfl, ?_⟩
  simp only [byteLength_append, byteLength_cons, byteLength_nil]
  omega

theorem lower_sevensOrNull {count : Nat} (h : count ≤ maxScriptBytes / 2) :
    lower (sevensOrNull count) = lowerUnbounded (sevensOrNull count) := by
  rw [sevensOrNull, lower, lowerUnbounded, lower, lowerUnbounded, ok_bind, ok_bind, String.toList_ofList,
    byteLength_sevens, if_neg (Nat.not_lt_of_le h)]
  rfl

/-- The longest such script, one that is too long in the end, and one that is given up early. -/
theorem script_exact_sevens :
    (∃ s, script (sevensOrNull 32753) = .ok s ∧ byteLength s = 65534) ∧
      script (sevensOrNull 32754) = .error scriptTooLong ∧
      script (sevensOrNull 32768) = .error scriptTooLong := by
  have hmax : maxScriptBytes = 65535 := rfl
  refine ⟨?_, ?_, ?_⟩
  · obtain ⟨text, htext, hlength⟩ := lowerUnbounded_sevensOrNull 32753
    have hsize : byteLength (scriptOf text) = 65534 := by rw [byteLength_scriptOf, hlength]
    exact ⟨_, ((script_exact _).1 _).mpr ⟨text, htext, rfl, by omega⟩, hsize⟩
  · obtain ⟨text, htext, hlength⟩ := lowerUnbounded_sevensOrNull 32754
    exact (script_exact _).2 text htext (by rw [byteLength_scriptOf]; omega)
  · obtain ⟨text, htext, hlength⟩ := lowerUnbounded_sevensOrNull 32768
    exact (script_exact _).2 text htext (by rw [byteLength_scriptOf]; omega)

/-! ### Growth -/

/-- All nodes of a tree, each before its parts. -/
def nodes (e : Expr) : List Expr :=
  (nodesFrom 1 e).map Prod.snd

/-- The string that a node keeps. -/
def stored : Expr → List Char
  | .number text => text.toList
  | .string text => text.toList
  | .param name => name.toList
  | .call name _ => name.toList
  | _ => []

def nodeCount (e : Expr) : Nat :=
  (nodes e).length

/-- The bytes of all strings in a tree. -/
def storedBytes (e : Expr) : Nat :=
  ((nodes e).map fun n => byteLength n.stored).sum

/-- The bytes that the text of a tree may have: so many for each node, and some for each byte that it keeps. -/
def allowance (e : Expr) : Nat :=
  65600 * nodeCount e + 6 * storedBytes e

theorem map_snd_nodesFrom (depth : Nat) (e : Expr) : (nodesFrom depth e).map Prod.snd = nodes e := by
  induction e using induction_children generalizing depth with
  | step e ih =>
      have hall (depth depth' : Nat) (es : List Expr) (h : ∀ e' ∈ es, e' ∈ e.children) :
          (nodesOfAll depth es).map Prod.snd = (nodesOfAll depth' es).map Prod.snd := by
        induction es with
        | nil => rfl
        | cons first es ihes =>
            obtain ⟨hfirst, hes⟩ := List.forall_mem_cons.mp h
            simp only [nodesOfAll, List.map_append, ih first hfirst, ihes hes]
      rw [nodes, nodesFrom_eq, nodesFrom_eq, List.map_cons, List.map_cons, hall _ _ e.children fun _ => id]

theorem nodes_eq (e : Expr) : nodes e = e :: e.children.flatMap nodes := by
  have hall (depth : Nat) (es : List Expr) : (nodesOfAll depth es).map Prod.snd = es.flatMap nodes := by
    induction es with
    | nil => rfl
    | cons first es ih => rw [nodesOfAll, List.map_append, map_snd_nodesFrom, ih, List.flatMap_cons]
  rw [nodes, nodesFrom_eq, List.map_cons, hall]

theorem allowance_eq (e : Expr) :
    allowance e = 65600 + 6 * byteLength e.stored + (e.children.map allowance).sum := by
  have hall (es : List Expr) : (es.map allowance).sum = 65600 * (es.flatMap nodes).length +
      6 * ((es.flatMap nodes).map fun n => byteLength n.stored).sum := by
    induction es with
    | nil => rfl
    | cons first es ih =>
        simp only [List.map_cons, List.sum_cons, ih, List.flatMap_cons, List.length_append, List.map_append,
          List.sum_append, allowance, nodeCount, storedBytes]
        omega
  rw [hall, allowance, nodeCount, storedBytes, nodes_eq]
  simp only [List.length_cons, List.map_cons, List.sum_cons]
  omega

/-- Only a call that names a field writes an argument more than once, and only its first one. -/
theorem CallText.byteLength_le (h : CallText name texts text) :
    byteLength text ≤ (texts.map byteLength).sum + 55 ∨
      (name = "v" ∨ name = "exists") ∧ ∃ first others, texts = first :: others ∧
        byteLength text ≤ 3 * byteLength first + (others.map byteLength).sum + 55 := by
  cases h with
  | value field =>
      have hdefault : byteLength missingFieldDefault = 3 := by decide
      refine .inr ⟨.inl rfl, field, [], rfl, ?_⟩
      rw [byteLength_fieldValue, hdefault]
      omega
  | valueOr field default others =>
      refine .inr ⟨.inl rfl, field, default :: others, rfl, ?_⟩
      rw [byteLength_fieldValue, List.map_cons, List.sum_cons]
      omega
  | presence field =>
      have hparen := utf8Size_parens
      refine .inr ⟨.inr rfl, field, [], rfl, ?_⟩
      simp only [byteLength_append, byteLength_cons, byteLength_nil, byteLength_presence]
      omega
  | clamp x lo hi =>
      have hname : byteLength "min".toList = 3 ∧ byteLength "max".toList = 3 := by decide
      left
      simp only [byteLength_libraryCall, List.map_cons, List.map_nil, List.sum_cons, List.sum_nil,
        List.length_cons, List.length_nil]
      omega
  | binary hname left right =>
      have hlength : ∀ name ∈ ["min", "max", "pow"], byteLength name.toList ≤ 3 := by decide
      have hname := hlength name hname
      left
      rw [byteLength_libraryCall, List.length_cons, List.length_singleton]
      omega
  | unary hname x =>
      have hlength : ∀ name ∈ ["abs", "floor", "ceil", "round", "log", "sqrt"],
          byteLength name.toList ≤ 5 := by decide
      have hname := hlength name hname
      left
      rw [byteLength_libraryCall, List.length_singleton]
      omega

theorem sum_le_of_lowerAll {args : List Expr}
    (h : ∀ arg ∈ args, ∀ text, lower arg = .ok text → byteLength text ≤ allowance arg)
    (htexts : lowerAll args = .ok texts) : (texts.map byteLength).sum ≤ (args.map allowance).sum := by
  induction args generalizing texts with
  | nil =>
      cases htexts
      exact Nat.le_refl _
  | cons arg args ih =>
      obtain ⟨text, others, rfl, htext, hothers⟩ := lowerAll_cons htexts
      obtain ⟨harg, hargs⟩ := List.forall_mem_cons.mp h
      exact Nat.add_le_add (harg text htext) (ih hargs hothers)

/-- What a call adds to its arguments is paid for by the call and by the literal that it writes again. -/
theorem call_le_allowance {policy : ExpressionPolicy} {args : List Expr}
    (hnode : checkNode policy (.call name args) = .ok ())
    (h : ∀ arg ∈ args, ∀ text, lower arg = .ok text → byteLength text ≤ allowance arg)
    (htexts : lowerAll args = .ok texts) (htext : CallText name texts text) :
    byteLength text ≤ allowance (.call name args) := by
  rw [allowance_eq, children]
  rcases htext.byteLength_le with hle | ⟨hname, first, others, rfl, hle⟩
  · have hsum := sum_le_of_lowerAll h htexts
    omega
  · cases args with
    | nil => cases htexts
    | cons arg args =>
        obtain ⟨_, _, hcons, harg, hothers⟩ := lowerAll_cons htexts
        cases hcons
        obtain ⟨field, rfl, -⟩ := (checkNode_eq_ok.mp hnode).2 hname arg args rfl
        cases harg
        have hliteral := Quoted.byteLength_script_le field
        have hsum := sum_le_of_lowerAll (List.forall_mem_cons.mp h).2 hothers
        have hfield : allowance (.string field) = 65600 + 6 * byteLength field.toList + 0 := allowance_eq _
        rw [List.map_cons, List.sum_cons, hfield]
        omega

theorem le_allowance {policy : ExpressionPolicy} (he : Everywhere (fun e => checkNode policy e = .ok ()) e) :
    ∀ text, lower e = .ok text → byteLength text ≤ allowance e := by
  induction he with
  | @node e here _ ih =>
      intro text h
      cases e with
      | number digits =>
          cases h
          rw [allowance_eq, stored]
          omega
      | string literal =>
          cases h
          have hliteral := Quoted.byteLength_script_le literal
          rw [allowance_eq, stored]
          omega
      | bool b =>
          cases h
          have hwords : byteLength "true".toList = 4 ∧ byteLength "false".toList = 5 := by decide
          rw [allowance_eq]
          split <;> omega
      | null =>
          cases h
          have hword : byteLength "null".toList = 4 := by decide
          rw [allowance_eq]
          omega
      | score =>
          cases h
          have hword : byteLength "_score".toList = 6 := by decide
          rw [allowance_eq]
          omega
      | param name =>
          cases h
          have hword : byteLength "params.".toList = 7 := by decide
          rw [allowance_eq, stored, byteLength_append]
          omega
      | unary op operand =>
          simp only [lower, bind_eq_ok] at h
          obtain ⟨inner, hinner, h⟩ := h
          cases h
          have hop : byteLength op.symbol.toList = 1 := by cases op <;> decide
          have hparen := utf8Size_parens
          have hoperand := ih operand (by simp [children]) inner hinner
          rw [allowance_eq, children, List.map_singleton, List.sum_singleton]
          split <;> simp only [byteLength_append, byteLength_cons, byteLength_nil] <;> omega
      | binary op left right =>
          simp only [lower, bind_eq_ok] at h
          obtain ⟨leftText, hleft, rightText, hright, h⟩ := h
          cases h
          have hop : byteLength op.symbol.toList ≤ 2 := by cases op <;> decide
          have hparen := utf8Size_parens
          have hspace : ' '.utf8Size = 1 := rfl
          have hleft := ih left (by simp [children]) leftText hleft
          have hright := ih right (by simp [children]) rightText hright
          rw [allowance_eq]
          simp only [children, List.map_cons, List.map_nil, List.sum_cons, List.sum_nil, byteLength_append,
            byteLength_cons, byteLength_nil]
          omega
      | ternary cond yes no =>
          simp only [lower, bind_eq_ok] at h
          obtain ⟨condText, hcond, yesText, hyes, noText, hno, h⟩ := h
          cases h
          have hjoint : byteLength " ? ".toList = 3 ∧ byteLength " : ".toList = 3 := by decide
          have hparen := utf8Size_parens
          have hcond := ih cond (by simp [children]) condText hcond
          have hyes := ih yes (by simp [children]) yesText hyes
          have hno := ih no (by simp [children]) noText hno
          rw [allowance_eq]
          simp only [children, List.map_cons, List.map_nil, List.sum_cons, List.sum_nil, byteLength_append,
            byteLength_cons, byteLength_nil]
          omega
      | coalesce left right =>
          simp only [lower, bind_eq_ok] at h
          obtain ⟨leftText, hleft, h⟩ := h
          split at h
          · cases h
          · next hhalf =>
              -- the node alone pays for both copies of a left side of at most half a script
              simp only [bind_eq_ok] at h
              obtain ⟨rightText, hright, h⟩ := h
              cases h
              have hmax : maxScriptBytes = 65535 := rfl
              have hjoint : byteLength " != null ? ".toList = 11 ∧ byteLength " : ".toList = 3 := by decide
              have hparen := utf8Size_parens
              have hright := ih right (by simp [children]) rightText hright
              rw [allowance_eq]
              simp only [children, List.map_cons, List.map_nil, List.sum_cons, List.sum_nil, byteLength_append,
                byteLength_cons, byteLength_nil]
              omega
      | call name args =>
          simp only [lower, bind_eq_ok] at h
          obtain ⟨_, -, texts, htexts, h⟩ := h
          exact call_le_allowance here ih htexts (lowerCall_eq_ok.mp h)

theorem Everywhere.of_within {P : Expr → Prop} {n : Expr} (he : Everywhere P e) (h : Within n e) :
    Everywhere P n := by
  induction he with
  | @node e here below ih =>
      rcases h.cases_children with rfl | ⟨child, hchild, h⟩
      · exact .node here below
      · exact ih child hchild h

/-- No text that is put together for a tree that keeps to its restrictions, nor for any part of it, outgrows its
nodes and strings, not even where the script is then refused for its length. -/
theorem emission_linear {policy : ExpressionPolicy} {n : Expr} (hcheck : check policy e = .ok ())
    (hn : Within n e) (htext : lower n = .ok text) :
    byteLength text ≤ 65600 * nodeCount n + 6 * storedBytes n :=
  le_allowance ((everywhere_of_checkFrom hcheck).of_within hn) text htext

/-- The longest left side that is written twice makes a text that is too long for a script, and yet shorter than
what a single node may add. -/
theorem emission_linear_sevens :
    check ⟨2, [], []⟩ (sevensOrNull 32767) = .ok () ∧
      Within (sevensOrNull 32767) (sevensOrNull 32767) ∧
      ∃ text, lower (sevensOrNull 32767) = .ok text ∧ byteLength text = 65554 ∧
        script (sevensOrNull 32767) = .error scriptTooLong ∧
        byteLength text ≤ 65600 * nodeCount (sevensOrNull 32767) + 6 * storedBytes (sevensOrNull 32767) := by
  have hcheck : check ⟨2, [], []⟩ (sevensOrNull 32767) = .ok () := rfl
  obtain ⟨text, htext, hlength⟩ := lowerUnbounded_sevensOrNull 32767
  have hlower : lower (sevensOrNull 32767) = .ok text := (lower_sevensOrNull (by decide)).trans htext
  have hscript : script (sevensOrNull 32767) = .error scriptTooLong := by
    have hmax : maxScriptBytes = 65535 := rfl
    rw [script_of_lower hlower, if_pos (by rw [byteLength_scriptOf]; omega)]
  exact ⟨hcheck, .root _, text, hlower, hlength, hscript, emission_linear hcheck (.root _) hlower⟩

end Expr

end StampedPrograms
