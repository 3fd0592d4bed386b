import StampedPrograms.Expr.Lowering
import StampedPrograms.Proofs.Expr.Nodes
import StampedPrograms.Proofs.Expr.Script

/-!
Lowering puts together texts of the grammar of scripts, out of the parts of a tree that is spelled as
sources spell and keeps to its restrictions.
-/

namespace StampedPrograms.Expr

open Script (Emitted quiet awaited plain)

/-! ### Parts of scripts -/

section Parts

variable {fields params : List String} {stack stack' stack'' : List Char}

/-- A text that can be a part of a script. -/
def Part (fields params : List String) (text : List Char) : Prop :=
  Emitted fields params [] [] text

theorem emitted_quiet {cs : List Char} (hquiet : quiet cs = true)
    (hstack : awaited stack (plain cs) = some stack') : Emitted fields params stack stack' cs := by
  have h : Emitted fields params stack stack' (cs ++ []) := .text hquiet hstack .nil
  rwa [List.append_nil] at h

theorem emitted_paren : Emitted fields params [')'] [] [')'] :=
  emitted_quiet rfl rfl

/-- A part in front of the closing parenthesis. -/
theorem emitted_last {part : List Char} (h : Part fields params part) :
    Emitted fields params [')'] [] (part ++ [')']) :=
  .part h emitted_paren ⟨')', rfl, by decide⟩

theorem part_parens {part : List Char} (h : Part fields params part) :
    Part fields params ('(' :: part ++ [')']) :=
  @Emitted.text _ _ [] [')'] [] ['('] _ rfl rfl (emitted_last h)

theorem part_unary {part : List Char} (op : UnaryOp) (h : Part fields params part) :
    Part fields params (op.symbol.toList ++ part) := by
  have hquiet : quiet op.symbol.toList = true := by cases op <;> decide
  have hstack : awaited [] (plain op.symbol.toList) = some [] := by cases op <;> decide
  exact .text hquiet hstack h

/-- A text that can stand between two parts in parentheses. -/
structure Joint (cs : List Char) : Prop where
  quiet : quiet cs = true
  closed : awaited [')'] (plain cs) = some [')']
  head : ∃ c ∈ cs.head?, c ∈ Script.followers

theorem Joint.emitted {joint part rest : List Char} (hjoint : Joint joint)
    (hpart : Part fields params part) (hrest : Emitted fields params [')'] [] rest) :
    Emitted fields params [')'] [] (part ++ (joint ++ rest)) := by
  refine .part hpart (.text hjoint.quiet hjoint.closed hrest) ?_
  obtain ⟨c, hc, hfollower⟩ := hjoint.head
  cases joint with
  | nil => cases hc
  | cons d cs => exact ⟨c, hc, hfollower⟩

theorem joint_operator (op : BinaryOp) : Joint (' ' :: op.symbol.toList ++ [' ']) := by
  cases op <;> exact ⟨rfl, rfl, ' ', rfl, by decide⟩

theorem part_binary {left right : List Char} (op : BinaryOp) (hleft : Part fields params left)
    (hright : Part fields params right) :
    Part fields params ('(' :: left ++ ' ' :: op.symbol.toList ++ ' ' :: right ++ [')']) := by
  have hbody := (joint_operator op).emitted hleft (emitted_last hright)
  have hparen := @Emitted.text fields params [] [')'] [] ['('] _ rfl rfl hbody
  simpa [Part] using hparen

theorem part_ternary {first second third before after : List Char} (hbefore : Joint before)
    (hafter : Joint after) (hfirst : Part fields params first) (hsecond : Part fields params second)
    (hthird : Part fields params third) :
    Part fields params ('(' :: first ++ before ++ second ++ after ++ third ++ [')']) := by
  have hbody := hbefore.emitted hfirst (hafter.emitted hsecond (emitted_last hthird))
  have hparen := @Emitted.text fields params [] [')'] [] ['('] _ rfl rfl hbody
  simpa [Part] using hparen

theorem emitted_arguments {args : List (List Char)} (h : ∀ arg ∈ args, Part fields params arg) :
    Emitted fields params [')'] [] (List.intercalate [',', ' '] args ++ [')']) := by
  induction args with
  | nil => exact emitted_paren
  | cons arg args ih =>
      obtain ⟨harg, hargs⟩ := List.forall_mem_cons.mp h
      cases args with
      | nil => simpa using emitted_last harg
      | cons next args =>
          rw [List.intercalate_cons_cons, List.append_assoc, List.append_assoc]
          exact .part harg (.text rfl rfl (ih hargs)) ⟨',', rfl, by decide⟩

theorem part_libraryCall {name : String} {args : List (List Char)}
    (hname : name ∈ ["min", "max", "pow", "abs", "floor", "ceil", "round", "log", "sqrt"])
    (h : ∀ arg ∈ args, Part fields params arg) : Part fields params (libraryCall name args) := by
  have hquiet : ∀ name ∈ ["min", "max", "pow", "abs", "floor", "ceil", "round", "log", "sqrt"],
      quiet ("Math.".toList ++ name.toList ++ ['(']) = true ∧
        awaited [] (plain ("Math.".toList ++ name.toList ++ ['('])) = some [')'] := by
    decide
  obtain ⟨hquiet, hstack⟩ := hquiet name hname
  have hcall := Emitted.text hquiet hstack (emitted_arguments h)
  unfold Part libraryCall
  rw [List.append_assoc, List.append_assoc] at hcall ⊢
  exact hcall

theorem awaited_more {before after cs : List Char} (h : awaited before (plain cs) = some after)
    (stack : List Char) : awaited (before ++ stack) (plain cs) = some (after ++ stack) := by
  have hmore := Script.awaited_append h stack []
  rwa [List.append_nil, awaited] at hmore

theorem presence_append (field rest : List Char) :
    presence field ++ rest = "doc.containsKey(".toList ++ (field ++ (") && !".toList ++
      ("doc[".toList ++ (field ++ ("].empty".toList ++ rest))))) := by
  unfold presence
  simp

theorem fieldValue_eq (field default : List Char) :
    fieldValue field default = ['('] ++ (presence field ++ (" ? ".toList ++ ("doc[".toList ++
      (field ++ ("].value : ".toList ++ (default ++ [')'])))))) := by
  unfold fieldValue
  simp

theorem emitted_presence {name : String} (hname : name ∈ fields) {rest : List Char}
    (h : Emitted fields params stack stack' rest) :
    Emitted fields params stack stack' (presence (Quoted.script name) ++ rest) := by
  have hkey : awaited [] (plain "doc.containsKey(".toList) = some [')'] := by decide
  have hand : awaited [')'] (plain ") && !".toList) = some [] := by decide
  have hdoc : awaited [] (plain "doc[".toList) = some [']'] := by decide
  have hempty : awaited [']'] (plain "].empty".toList) = some [] := by decide
  have htext := Emitted.text (by decide) (awaited_more hempty stack) h
  have hlookup := Emitted.field (List.mem_cons_of_mem _ (List.mem_cons_self ..)) hname
    (awaited_more hdoc stack) htext
  have hboth := Emitted.text (by decide) (awaited_more hand stack) hlookup
  rw [presence_append]
  exact .field (List.mem_cons_self ..) hname (awaited_more hkey stack) hboth

theorem part_exists {name : String} (hname : name ∈ fields) :
    Part fields params ('(' :: presence (Quoted.script name) ++ [')']) :=
  @Emitted.text _ _ [] [')'] [] ['('] _ rfl rfl (emitted_presence hname emitted_paren)

theorem part_fieldValue {name : String} (hname : name ∈ fields) {default : List Char}
    (h : Part fields params default) :
    Part fields params (fieldValue (Quoted.script name) default) := by
  have hcond : awaited [')'] (plain " ? ".toList) = some [')'] := by decide
  have hdoc : awaited [')'] (plain "doc[".toList) = some [']', ')'] := by decide
  have hvalue : awaited [']', ')'] (plain "].value : ".toList) = some [')'] := by decide
  have htext := Emitted.text (by decide) hvalue (emitted_last h)
  have hlookup := Emitted.field (List.mem_cons_of_mem _ (List.mem_cons_self ..)) hname hdoc htext
  have hpresence := emitted_presence hname (Emitted.text (by decide) hcond hlookup)
  rw [Part, fieldValue_eq]
  exact .text rfl rfl hpresence

end Parts

/-! ### Trees -/

section Trees

variable {policy : ExpressionPolicy}

theorem lowerAll_cons {e : Expr} {es : List Expr} {texts : List (List Char)}
    (h : lowerAll (e :: es) = .ok texts) :
    ∃ text others, texts = text :: others ∧ lower e = .ok text ∧ lowerAll es = .ok others := by
  rw [lowerAll, bind_eq_ok] at h
  obtain ⟨text, htext, h⟩ := h
  rw [bind_eq_ok] at h
  obtain ⟨others, hothers, h⟩ := h
  cases h
  exact ⟨text, others, rfl, htext, hothers⟩

theorem exists_of_mem_lowerAll {es : List Expr} {texts : List (List Char)} (h : lowerAll es = .ok texts) :
    ∀ text ∈ texts, ∃ e ∈ es, lower e = .ok text := by
  induction es generalizing texts with
  | nil =>
      cases h
      simp
  | cons e es ih =>
      obtain ⟨first, others, rfl, hfirst, hothers⟩ := lowerAll_cons h
      intro text htext
      rcases List.mem_cons.mp htext with rfl | htext
      · exact ⟨e, List.mem_cons_self .., hfirst⟩
      · obtain ⟨e', he', hlower⟩ := ih hothers text htext
        exact ⟨e', List.mem_cons_of_mem _ he', hlower⟩

/-- The first text of a call that names a field is the literal of a field that may be named. -/
theorem field_of_checkNode {name : String} (hname : name = "v" ∨ name = "exists") {args : List Expr}
    (h : checkNode policy (.call name args) = .ok ()) {first : List Char} {others : List (List Char)}
    (htexts : lowerAll args = .ok (first :: others)) :
    ∃ field ∈ policy.fields, first = Quoted.script field := by
  cases args with
  | nil => cases htexts
  | cons arg args =>
      obtain ⟨text, others, hcons, htext, -⟩ := lowerAll_cons htexts
      cases hcons
      obtain ⟨field, rfl, hfield⟩ := (checkNode_eq_ok.mp h).2 hname arg args rfl
      cases htext
      exact ⟨field, hfield, rfl⟩

theorem part_missingFieldDefault : Part policy.fields policy.params missingFieldDefault :=
  emitted_quiet (by decide) (by decide)

theorem part_of_lowerCall {name : String} {args : List Expr} {texts : List (List Char)}
    {text : List Char} (hnode : checkNode policy (.call name args) = .ok ())
    (htexts : lowerAll args = .ok texts)
    (hparts : ∀ text ∈ texts, Part policy.fields policy.params text)
    (h : lowerCall name texts = .ok text) : Part policy.fields policy.params text := by
  unfold lowerCall at h
  split at h
  · obtain ⟨field, hfield, rfl⟩ := field_of_checkNode (by decide) hnode htexts
    cases h
    exact part_fieldValue hfield part_missingFieldDefault
  · next first default others =>
      obtain ⟨field, hfield, rfl⟩ := field_of_checkNode (by decide) hnode htexts
      cases h
      exact part_fieldValue hfield (hparts default (by simp))
  · obtain ⟨field, hfield, rfl⟩ := field_of_checkNode (by decide) hnode htexts
    cases h
    exact part_exists hfield
  · next x lo hi =>
      cases h
      simp only [List.forall_mem_cons] at hparts
      obtain ⟨hx, hlo, hhi, -⟩ := hparts
      have hmax : Part policy.fields policy.params (libraryCall "max" [lo, x]) :=
        part_libraryCall (by decide) (by simp [hlo, hx])
      exact part_libraryCall (by decide) (by simp [hhi, hmax])
  · next left right _ _ _ =>
      split at h
      · next hname =>
          cases h
          refine part_libraryCall ?_ hparts
          simp at hname ⊢
          rcases hname with rfl | rfl | rfl <;> simp
      · cases h
  · next x _ _ _ _ =>
      split at h
      · next hname =>
          cases h
          refine part_libraryCall ?_ hparts
          simp at hname ⊢
          rcases hname with rfl | rfl | rfl | rfl | rfl | rfl <;> simp
      · cases h
  · cases h

theorem quiet_of_number {cs : List Char} (h : ∀ c ∈ cs, Token.isNumberPart c = true) : quiet cs = true := by
  have hchar (c : Char) (hc : Token.isNumberPart c = true) :
      Script.isScriptChar c = true ∧ c ≠ '/' ∧ c ≠ 'd' ∧ c ≠ 'p' := by
    refine ⟨?_, ?_, ?_, ?_⟩
    · simp only [Token.isNumberPart, Bool.or_eq_true, beq_iff_eq] at hc
      rcases hc with hdigit | rfl
      · simp [Script.isScriptChar, Char.isAlphanum, hdigit]
      · rfl
    all_goals
      rintro rfl
      cases hc
  induction cs with
  | nil => rfl
  | cons c cs ih =>
      obtain ⟨hc, hcs⟩ := List.forall_mem_cons.mp h
      obtain ⟨hscript, hslash, hd, hp⟩ := hchar c hc
      cases cs with
      | nil => simp [quiet, hscript, hslash, hd, hp]
      | cons next cs =>
          rw [quiet, hscript, ih hcs]
          simp [Script.begins, hslash, hd, hp]

theorem part_number {fields params : List String} {digits : String} {text : List Char}
    (hspelled : Spelled (.number digits)) (h : lower (.number digits) = .ok text) :
    Part fields params text := by
  cases h
  refine emitted_quiet (quiet_of_number hspelled) (Script.awaited_plain ?_ [])
  intro c hc hbracket
  simp only [List.mem_cons, List.not_mem_nil, or_false] at hbracket
  rcases hbracket with rfl | rfl | rfl | rfl <;> exact absurd (hspelled _ hc) (by decide)

/-- The text of a tree is a part of a script. -/
theorem part_of_lower {e : Expr}
    (he : Everywhere (fun e => Spelled e ∧ checkNode policy e = .ok ()) e) :
    ∀ {text : List Char}, lower e = .ok text → Part policy.fields policy.params text := by
  induction he with
  | @node e here _ ih =>
      obtain ⟨hspelled, hnode⟩ := here
      intro text h
      cases e with
      | number digits => exact part_number hspelled h
      | string s =>
          cases h
          exact .literal s
      | bool b =>
          cases h
          cases b <;> exact emitted_quiet (by decide) (by decide)
      | null =>
          cases h
          exact emitted_quiet (by decide) (by decide)
      | score =>
          cases h
          exact emitted_quiet (by decide) (by decide)
      | param name =>
          cases h
          exact .param hspelled (checkNode_eq_ok.mp hnode)
      | unary op operand =>
          simp only [lower, bind_eq_ok] at h
          obtain ⟨inner, hinner, h⟩ := h
          cases h
          have hpart := ih operand (by simp [children]) hinner
          split
          · exact part_unary op (part_parens hpart)
          · exact part_unary op hpart
      | binary op left right =>
          simp only [lower, bind_eq_ok] at h
          obtain ⟨leftText, hleft, rightText, hright, h⟩ := h
          cases h
          exact part_binary op (ih left (by simp [children]) hleft) (ih right (by simp [children]) hright)
      | ternary cond yes no =>
          simp only [lower, bind_eq_ok] at h
          obtain ⟨condText, hcond, yesText, hyes, noText, hno, h⟩ := h
          cases h
          exact part_ternary ⟨rfl, rfl, ' ', rfl, by decide⟩ ⟨rfl, rfl, ' ', rfl, by decide⟩
            (ih cond (by simp [children]) hcond) (ih yes (by simp [children]) hyes)
            (ih no (by simp [children]) hno)
      | coalesce left right =>
          simp only [lower, bind_eq_ok] at h
          obtain ⟨leftText, hleft, h⟩ := h
          split at h
          · cases h
          · simp only [bind_eq_ok] at h
            obtain ⟨rightText, hright, h⟩ := h
            cases h
            have hpart := ih left (by simp [children]) hleft
            exact part_ternary ⟨rfl, rfl, ' ', rfl, by decide⟩ ⟨rfl, rfl, ' ', rfl, by decide⟩ hpart hpart
              (ih right (by simp [children]) hright)
      | call name args =>
          simp only [lower, bind_eq_ok] at h
          obtain ⟨-, -, texts, htexts, h⟩ := h
          refine part_of_lowerCall hnode htexts (fun text htext => ?_) h
          obtain ⟨arg, harg, hlower⟩ := exists_of_mem_lowerAll htexts text htext
          exact ih arg harg hlower

end Trees

end StampedPrograms.Expr
