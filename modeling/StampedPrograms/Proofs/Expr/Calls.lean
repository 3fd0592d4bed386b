import Mathlib.Data.List.Basic
import StampedPrograms.Proofs.Expr.Compliance
import StampedPrograms.Proofs.Expr.Lowering

/-!
The calls of expressions. Which calls a tree may make, how many arguments they take with the template they
are lowered to, and how they are lowered is said in three places. The three agree: what keeps to the
restrictions can only be refused for a number of arguments or for its size, and the text of a call is the
template of the table with the arguments in the places that its signature gives them.
-/

namespace StampedPrograms

/-! ### Templates -/

namespace Template

/-- A character of a template, or the place of an argument. -/
inductive Part where
  | own (c : Char)
  | slot (i : Nat)
deriving DecidableEq

/-- What stands for a part where these are the arguments. Zero stands for an argument that is left out. -/
def Part.text (args : List (List Char)) : Part → List Char
  | .own c => [c]
  | .slot i => args.getD i "0.0".toList

def instantiate (template : List Part) (args : List (List Char)) : List Char :=
  template.flatMap (Part.text args)

def own (s : String) : List Part :=
  s.toList.map .own

/-- The words of a text and what stands between them, in turn. -/
def runs (s : String) : List (List Char) :=
  s.toList.splitBy fun c d => Token.isNamePart c == Token.isNamePart d

def words (s : String) : List (List Char) :=
  (runs s).filter fun run => run.all Token.isNamePart

/-- The template that a text stands for: each word of it that is a placeholder is the place of an argument. -/
def read (placeholders : List (List Char)) (s : String) : List Part :=
  (runs s).flatMap fun run =>
    match placeholders.idxOf? run with
    | some i => [.slot i]
    | none => run.map .own

/-- The template without the blanks in it. -/
def unspaced (template : List Part) : List Part :=
  template.filter fun part => part ≠ .own ' '

end Template

open Template (Part)

namespace CallSpec

/-- The words that stand for the arguments in the template of a call, in the order of the arguments: the
parameters that the signature names after the call, but for the two calls that name a field. -/
def placeholders (spec : CallSpec) : List (List Char) :=
  if spec.name = "v" then ["field".toList, "default".toList]
  else if spec.name = "exists" then ["field".toList]
  else (Template.words spec.signature).tail

def template (spec : CallSpec) : List Part :=
  Template.read spec.placeholders spec.lowersTo

/-- The text is the template with the arguments put into it, up to blanks outside of the arguments. -/
def Describes (spec : CallSpec) (args : List (List Char)) (text : List Char) : Prop :=
  ∃ template, Template.unspaced template = Template.unspaced spec.template ∧
    Template.instantiate template args = text

end CallSpec

namespace Template

variable {args : List (List Char)}

@[simp] theorem instantiate_nil : instantiate [] args = [] := rfl

@[simp] theorem instantiate_cons (part : Part) (template : List Part) :
    instantiate (part :: template) args = part.text args ++ instantiate template args := rfl

@[simp] theorem instantiate_append (template template' : List Part) :
    instantiate (template ++ template') args = instantiate template args ++ instantiate template' args :=
  List.flatMap_append

@[simp] theorem instantiate_own (s : String) : instantiate (own s) args = s.toList := by
  rw [instantiate, own, List.flatMap_map]
  exact List.flatMap_singleton' _

theorem instantiate_intercalate (sep : List Part) (templates : List (List Part)) :
    instantiate (List.intercalate sep templates) args =
      List.intercalate (instantiate sep args) (templates.map (instantiate · args)) := by
  induction templates with
  | nil => rfl
  | cons first templates ih =>
      cases templates with
      | nil => simp
      | cons next templates =>
          rw [List.intercalate_cons_cons, instantiate_append, instantiate_append, ih]
          exact List.intercalate_cons_cons.symm

/-- The template of a call of the target's library. -/
def libraryCall (name : String) (args : List (List Part)) : List Part :=
  own "Math." ++ own name ++ own "(" ++ List.intercalate (own ", ") args ++ own ")"

theorem instantiate_libraryCall (name : String) (templates : List (List Part)) :
    instantiate (libraryCall name templates) args =
      Expr.libraryCall name (templates.map (instantiate · args)) := by
  unfold libraryCall Expr.libraryCall
  simp only [instantiate_append, instantiate_own, instantiate_intercalate, List.append_assoc]
  rfl

def presence : List Part :=
  own "doc.containsKey(" ++ .slot 0 :: own ") && !doc[" ++ .slot 0 :: own "].empty"

theorem instantiate_presence (field : List Char) (others : List (List Char)) :
    instantiate presence (field :: others) = Expr.presence field := by
  unfold presence Expr.presence
  simp only [instantiate_append, instantiate_cons, instantiate_own, Part.text, List.getD_cons_zero,
    List.append_assoc]

/-- The template that the lowering of a call follows. -/
def ofCall (name : String) : List Part :=
  match name with
  | "v" => own "(" ++ presence ++ own " ? doc[" ++ .slot 0 :: own "].value : " ++ .slot 1 :: own ")"
  | "exists" => own "(" ++ presence ++ own ")"
  | "clamp" => libraryCall "min" [[.slot 2], libraryCall "max" [[.slot 1], [.slot 0]]]
  | name =>
      if ["min", "max", "pow"].contains name then libraryCall name [[.slot 0], [.slot 1]]
      else libraryCall name [[.slot 0]]

/-- The template of the table and the one that is followed differ in blanks only. -/
theorem unspaced_ofCall :
    ∀ spec ∈ ExpressionSymbols.v1.calls, unspaced (ofCall spec.name) = unspaced spec.template := by
  decide +kernel

/-- The signature gives the bounds after the value, the template before it. -/
example : CallSpec.template ⟨"clamp", 3, 3, "@clamp(x, lo, hi)", "Math.min(hi, Math.max(lo, x))"⟩ =
    own "Math.min(" ++ .slot 2 :: own ", Math.max(" ++ .slot 1 :: own ", " ++ .slot 0 :: own "))" := by
  decide +kernel

end Template

/-! ### The table -/

namespace ExpressionSymbols

theorem mem_of_call? {name : String} {spec : CallSpec} (h : v1.call? name = some spec) :
    spec ∈ v1.calls ∧ spec.name = name :=
  ⟨List.mem_of_find?_eq_some h, by simpa using List.find?_some h⟩

/-- No two calls of the table have one name. -/
theorem call?_of_mem {spec : CallSpec} (h : spec ∈ v1.calls) : v1.call? spec.name = some spec := by
  simp only [v1, List.mem_cons, List.not_mem_nil, or_false] at h
  rcases h with rfl | rfl | rfl | rfl | rfl | rfl | rfl | rfl | rfl | rfl | rfl | rfl <;> rfl

theorem exists_call? {name : String} (h : name ∈ allowedCalls) : ∃ spec, v1.call? name = some spec := by
  have hall : ∀ name ∈ allowedCalls, (v1.call? name).isSome = true := by decide +kernel
  exact Option.isSome_iff_exists.mp (hall name h)

end ExpressionSymbols

/-- A number of arguments that a call may have. -/
def CallSpec.Allows (spec : CallSpec) (count : Nat) : Prop :=
  spec.arityMin.toNat ≤ count ∧ count ≤ spec.arityMax.toNat

namespace Expr

open ExpressionSymbols (v1)

variable {name : String} {spec : CallSpec} {e : Expr} {error : Error}

theorem checkArity_of_call? (h : v1.call? name = some spec) (count : Nat) :
    (spec.Allows count ∧ checkArity name count = .ok ()) ∨
      (¬ spec.Allows count ∧
        checkArity name count = .error (.callArity name spec.arityMin.toNat spec.arityMax.toNat count)) := by
  rw [checkArity, h]
  dsimp only
  split
  · next hcount => exact .inr ⟨by rw [CallSpec.Allows]; omega, rfl⟩
  · next hcount => exact .inl ⟨by rw [CallSpec.Allows]; omega, rfl⟩

/-! ### The lowering of calls -/

/-- What a call is lowered to. -/
inductive CallText : String → List (List Char) → List Char → Prop where
  | value (field : List Char) : CallText "v" [field] (fieldValue field missingFieldDefault)
  | valueOr (field default : List Char) (others : List (List Char)) :
      CallText "v" (field :: default :: others) (fieldValue field default)
  | presence (field : List Char) : CallText "exists" [field] ('(' :: presence field ++ [')'])
  | clamp (x lo hi : List Char) :
      CallText "clamp" [x, lo, hi] (libraryCall "min" [hi, libraryCall "max" [lo, x]])
  | binary {name : String} (hname : name ∈ ["min", "max", "pow"]) (left right : List Char) :
      CallText name [left, right] (libraryCall name [left, right])
  | unary {name : String} (hname : name ∈ ["abs", "floor", "ceil", "round", "log", "sqrt"]) (x : List Char) :
      CallText name [x] (libraryCall name [x])

variable {texts : List (List Char)} {text : List Char}

theorem lowerCall_eq_ok : lowerCall name texts = .ok text ↔ CallText name texts text := by
  constructor
  · intro h
    unfold lowerCall at h
    split at h
    · cases h
      exact .value _
    · cases h
      exact .valueOr ..
    · cases h
      exact .presence _
    · cases h
      exact .clamp ..
    · split at h
      · next hname =>
          cases h
          exact .binary (List.contains_iff_mem.mp hname) ..
      · cases h
    · split at h
      · next hname =>
          cases h
          exact .unary (List.contains_iff_mem.mp hname) _
      · cases h
    · cases h
  · rintro (_ | _ | _ | _ | ⟨hname, left, right⟩ | ⟨hname, x⟩)
    · rfl
    · rfl
    · rfl
    · rfl
    · simp only [List.mem_cons, List.not_mem_nil, or_false] at hname
      rcases hname with rfl | rfl | rfl <;> rfl
    · simp only [List.mem_cons, List.not_mem_nil, or_false] at hname
      rcases hname with rfl | rfl | rfl | rfl | rfl | rfl <;> rfl

theorem CallText.eq_instantiate (h : CallText name texts text) :
    text = Template.instantiate (Template.ofCall name) texts := by
  cases h with
  | value field =>
      simp [Template.ofCall, Template.instantiate_presence, fieldValue, missingFieldDefault, Part.text]
  | valueOr field default others =>
      simp [Template.ofCall, Template.instantiate_presence, fieldValue, Part.text]
  | presence field => simp [Template.ofCall, Template.instantiate_presence]
  | clamp x lo hi => simp [Template.ofCall, Template.instantiate_libraryCall, Part.text]
  | binary hname left right =>
      simp only [List.mem_cons, List.not_mem_nil, or_false] at hname
      rcases hname with rfl | rfl | rfl <;>
        simp [Template.ofCall, Template.instantiate_libraryCall, Part.text]
  | unary hname x =>
      simp only [List.mem_cons, List.not_mem_nil, or_false] at hname
      rcases hname with rfl | rfl | rfl | rfl | rfl | rfl <;>
        simp [Template.ofCall, Template.instantiate_libraryCall, Part.text]

/-- The calls of the table by their numbers of arguments. -/
theorem arity_cases : ∀ spec ∈ v1.calls,
    (spec.name = "v" ∧ spec.arityMin.toNat = 1 ∧ spec.arityMax.toNat = 2) ∨
      (spec.name = "exists" ∧ spec.arityMin.toNat = 1 ∧ spec.arityMax.toNat = 1) ∨
      (spec.name = "clamp" ∧ spec.arityMin.toNat = 3 ∧ spec.arityMax.toNat = 3) ∨
      (spec.name ∈ ["min", "max", "pow"] ∧ spec.arityMin.toNat = 2 ∧ spec.arityMax.toNat = 2) ∨
      (spec.name ∈ ["abs", "floor", "ceil", "round", "log", "sqrt"] ∧
        spec.arityMin.toNat = 1 ∧ spec.arityMax.toNat = 1) := by
  decide

/-- Every call of the table is lowered where the table allows its number of arguments. -/
theorem exists_callText (hspec : spec ∈ v1.calls) (hallows : spec.Allows texts.length) :
    ∃ text, CallText spec.name texts text := by
  obtain ⟨hmin, hmax⟩ := hallows
  rcases arity_cases spec hspec with ⟨hname, h₁, h₂⟩ | ⟨hname, h₁, h₂⟩ | ⟨hname, h₁, h₂⟩ |
    ⟨hname, h₁, h₂⟩ | ⟨hname, h₁, h₂⟩
  · rw [hname]
    match texts, hmin with
    | [field], _ => exact ⟨_, .value field⟩
    | field :: default :: others, _ => exact ⟨_, .valueOr field default others⟩
    | [], hmin => exact absurd hmin (by simp [h₁])
  · obtain ⟨field, rfl⟩ := List.length_eq_one_iff.mp (by omega : texts.length = 1)
    rw [hname]
    exact ⟨_, .presence field⟩
  · obtain ⟨x, lo, hi, rfl⟩ := List.length_eq_three.mp (by omega : texts.length = 3)
    rw [hname]
    exact ⟨_, .clamp x lo hi⟩
  · obtain ⟨left, right, rfl⟩ := List.length_eq_two.mp (by omega : texts.length = 2)
    exact ⟨_, .binary hname left right⟩
  · obtain ⟨x, rfl⟩ := List.length_eq_one_iff.mp (by omega : texts.length = 1)
    exact ⟨_, .unary hname x⟩

theorem describes_of_lowerCall (hspec : spec ∈ v1.calls) (h : lowerCall spec.name texts = .ok text) :
    spec.Describes texts text :=
  ⟨Template.ofCall spec.name, Template.unspaced_ofCall spec hspec,
    (lowerCall_eq_ok.mp h).eq_instantiate.symm⟩

theorem length_of_lowerAll {es : List Expr} (h : lowerAll es = .ok texts) : texts.length = es.length := by
  induction es generalizing texts with
  | nil =>
      cases h
      rfl
  | cons e es ih =>
      obtain ⟨text, others, rfl, -, hothers⟩ := lowerAll_cons h
      rw [List.length_cons, List.length_cons, ih hothers]

/-- A call with an allowed number of arguments is lowered exactly if its arguments are, to the template of the
table with their texts in it. -/
theorem lower_call_related {args : List Expr} (hspec : spec ∈ v1.calls)
    (hallows : spec.Allows args.length) :
    Related spec.Describes (lowerAll args) (lower (.call spec.name args)) := by
  have hcheck : checkArity spec.name args.length = .ok () := by
    rcases checkArity_of_call? (ExpressionSymbols.call?_of_mem hspec) args.length with ⟨-, h⟩ | ⟨h, -⟩
    · exact h
    · exact absurd hallows h
  rw [lower, hcheck, ok_bind]
  cases htexts : lowerAll args with
  | error error => exact .error error
  | ok texts =>
      obtain ⟨text, htext⟩ := exists_callText hspec (length_of_lowerAll htexts ▸ hallows)
      have hlower := lowerCall_eq_ok.mpr htext
      rw [ok_bind, hlower]
      exact .ok (describes_of_lowerCall hspec hlower)

/-! ### Why lowering fails -/

theorem lowerAll_eq_error {es : List Expr} (h : lowerAll es = .error error) :
    ∃ e ∈ es, lower e = .error error := by
  induction es with
  | nil => cases h
  | cons e es ih =>
      rw [lowerAll, bind_eq_error] at h
      rcases h with h | ⟨text, -, h⟩
      · exact ⟨e, List.mem_cons_self .., h⟩
      · rcases bind_eq_error.mp h with h | ⟨texts, -, h⟩
        · obtain ⟨e', he', h⟩ := ih h
          exact ⟨e', List.mem_cons_of_mem _ he', h⟩
        · cases h

/-- A tree is not lowered if one of its parts is not, if it is too long, or if it is a call that is not. -/
theorem lower_eq_error (h : lower e = .error error) :
    (∃ child ∈ e.children, lower child = .error error) ∨ error = scriptTooLong ∨
      ∃ name args, e = .call name args ∧
        (checkArity name args.length = .error error ∨
          checkArity name args.length = .ok () ∧
            ∃ texts, lowerAll args = .ok texts ∧ lowerCall name texts = .error error) := by
  cases e with
  | unary op operand =>
      rw [lower, bind_eq_error] at h
      rcases h with h | ⟨inner, -, h⟩
      · exact .inl ⟨operand, by simp [children], h⟩
      · cases h
  | binary op left right =>
      simp only [lower, bind_eq_error] at h
      rcases h with h | ⟨_, _, h | ⟨_, _, h⟩⟩
      · exact .inl ⟨left, by simp [children], h⟩
      · exact .inl ⟨right, by simp [children], h⟩
      · cases h
  | ternary cond yes no =>
      simp only [lower, bind_eq_error] at h
      rcases h with h | ⟨_, _, h | ⟨_, _, h | ⟨_, _, h⟩⟩⟩
      · exact .inl ⟨cond, by simp [children], h⟩
      · exact .inl ⟨yes, by simp [children], h⟩
      · exact .inl ⟨no, by simp [children], h⟩
      · cases h
  | coalesce left right =>
      rw [lower, bind_eq_error] at h
      rcases h with h | ⟨leftText, _, h⟩
      · exact .inl ⟨left, by simp [children], h⟩
      · split at h
        · cases h
          exact .inr (.inl rfl)
        · simp only [bind_eq_error] at h
          rcases h with h | ⟨_, _, h⟩
          · exact .inl ⟨right, by simp [children], h⟩
          · cases h
  | call name args =>
      simp only [lower, bind_eq_error] at h
      rcases h with h | ⟨_, hcheck, h | ⟨texts, htexts, h⟩⟩
      · exact .inr (.inr ⟨name, args, rfl, .inl h⟩)
      · exact .inl (lowerAll_eq_error h)
      · exact .inr (.inr ⟨name, args, rfl, .inr ⟨hcheck, texts, htexts, h⟩⟩)
  | _ => cases h

/-- Why a tree that keeps to its restrictions may not be lowered: its text is too long, or a call in it has a
number of arguments that the table does not allow. -/
inductive Refused (e : Expr) : Error → Prop where
  | tooLong : Refused e scriptTooLong
  | arity {name : String} {args : List Expr} {spec : CallSpec} (hcall : Within (.call name args) e)
      (hspec : v1.call? name = some spec) (hcount : ¬ spec.Allows args.length) :
      Refused e (.callArity name spec.arityMin.toNat spec.arityMax.toNat args.length)

theorem Refused.of_mem_children {child : Expr} (hchild : child ∈ e.children) (h : Refused child error) :
    Refused e error := by
  cases h with
  | tooLong => exact .tooLong
  | arity hcall hspec hcount => exact .arity (.of_mem_children hchild hcall) hspec hcount

theorem refused_of_lower {policy : ExpressionPolicy}
    (he : Everywhere (fun e => checkNode policy e = .ok ()) e) (h : lower e = .error error) :
    Refused e error := by
  induction he with
  | @node e here _ ih =>
      replace h := lower_eq_error h
      rcases h with ⟨child, hchild, h⟩ | rfl | ⟨name, args, rfl, h⟩
      · exact (ih child hchild h).of_mem_children hchild
      · exact .tooLong
      · obtain ⟨spec, hspec⟩ := ExpressionSymbols.exists_call? (checkNode_eq_ok.mp here).1
        rcases checkArity_of_call? hspec args.length with ⟨hallows, hcheck⟩ | ⟨hcount, hcheck⟩
        · -- an allowed call is in the table, so it has a lowering
          rcases h with h | ⟨-, texts, htexts, h⟩
          · rw [hcheck] at h
            cases h
          · obtain ⟨hmem, rfl⟩ := ExpressionSymbols.mem_of_call? hspec
            obtain ⟨text, htext⟩ := exists_callText hmem (length_of_lowerAll htexts ▸ hallows)
            rw [lowerCall_eq_ok.mpr htext] at h
            cases h
        · rw [hcheck] at h
          rcases h with h | ⟨h, -⟩
          · cases h
            exact .arity (.root _) hspec hcount
          · cases h

theorem script_cases (e : Expr) :
    (∃ text, script e = .ok text) ∨ script e = .error scriptTooLong ∨
      ∃ error, lower e = .error error ∧ script e = .error error := by
  rw [script]
  cases h : lower e with
  | error error => exact .inr (.inr ⟨error, rfl, rfl⟩)
  | ok text =>
      rw [ok_bind]
      dsimp only
      split
      · exact .inr (.inl rfl)
      · exact .inl ⟨_, rfl⟩

/-- A tree that keeps to its restrictions is lowered to a script, or refused for its length or for a number of
arguments, and for nothing else. A call of the table is lowered to the template of the table. -/
theorem call_tables_agree (policy : ExpressionPolicy) (e : Expr) :
    (check policy e = .ok () →
      (∃ text, script e = .ok text) ∨ ∃ error, script e = .error error ∧ Refused e error) ∧
    ∀ spec ∈ v1.calls, ∀ args : List Expr, spec.Allows args.length →
      Related spec.Describes (lowerAll args) (lower (.call spec.name args)) := by
  refine ⟨fun h => ?_, fun spec hspec args hallows => lower_call_related hspec hallows⟩
  rcases script_cases e with htext | hlong | ⟨error, hlower, hscript⟩
  · exact .inl htext
  · exact .inr ⟨_, hlong, .tooLong⟩
  · exact .inr ⟨error, hscript, refused_of_lower (everywhere_of_checkFrom h) hlower⟩

/-- A clamping without its upper bound, and a minimum with a blank inside of an argument. -/
theorem call_tables_agree_min :
    let spec : CallSpec := ⟨"min", 2, 2, "@min(a,b)", "Math.min(a,b)"⟩
    check ⟨2, [], []⟩ (.call "clamp" [.score, .null]) = .ok () ∧
      (∃ error, script (.call "clamp" [.score, .null]) = .error error ∧
        Refused (.call "clamp" [.score, .null]) error) ∧
      spec ∈ v1.calls ∧ spec.Allows [score, string "a b"].length ∧
      ∃ text, lower (.call "min" [.score, .string "a b"]) = .ok text ∧
        spec.Describes ["_score".toList, "'a b'".toList] text := by
  intro spec
  have hcheck : check ⟨2, [], []⟩ (.call "clamp" [.score, .null]) = .ok () := rfl
  have hspec : spec ∈ v1.calls := by simp [v1, spec]
  have hallows : spec.Allows [score, string "a b"].length := ⟨by decide, by decide⟩
  have htexts : lowerAll [score, string "a b"] = .ok ["_score".toList, "'a b'".toList] := rfl
  have hrelated := (call_tables_agree ⟨2, [], []⟩ .null).2 spec hspec [score, string "a b"] hallows
  rw [htexts] at hrelated
  refine ⟨hcheck, ?_, hspec, hallows, ?_⟩
  · have hclamp := (call_tables_agree ⟨2, [], []⟩ (.call "clamp" [.score, .null])).1 hcheck
    rcases hclamp with ⟨text, htext⟩ | herror
    · cases htext
    · exact herror
  · change Related _ _ (lower (.call "min" [.score, .string "a b"])) at hrelated
    generalize lower (.call "min" [.score, .string "a b"]) = lowered at hrelated ⊢
    cases hrelated with
    | ok same => exact ⟨_, rfl, same⟩

end Expr

end StampedPrograms
