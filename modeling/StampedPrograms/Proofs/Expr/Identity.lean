import StampedPrograms.Expr.Document
import StampedPrograms.Proofs.Expr.Nodes
import StampedPrograms.Proofs.Value.Record

/-!
The canonical value of a tree determines the tree. Its records are told apart by their types, and each
record gives back the parts of its node.
-/

namespace StampedPrograms

theorem UnaryOp.ofSymbol?_symbol (op : UnaryOp) : ofSymbol? op.symbol = some op := by
  cases op <;> rfl

theorem BinaryOp.ofSymbol?_symbol (op : BinaryOp) : ofSymbol? op.symbol = some op := by
  cases op <;> rfl

theorem UnaryOp.symbol_inj {op op' : UnaryOp} (h : op.symbol = op'.symbol) : op = op' := by
  have hread := congrArg ofSymbol? h
  rw [ofSymbol?_symbol, ofSymbol?_symbol] at hread
  exact Option.some.inj hread

theorem BinaryOp.symbol_inj {op op' : BinaryOp} (h : op.symbol = op'.symbol) : op = op' := by
  have hread := congrArg ofSymbol? h
  rw [ofSymbol?_symbol, ofSymbol?_symbol] at hread
  exact Option.some.inj hread

/-- Items are told by a map that tells each of them from all others. -/
theorem eq_of_map_eq {α β : Type} {f : α → β} {xs ys : List α}
    (hinj : ∀ x ∈ xs, ∀ y, f x = f y → x = y) (h : xs.map f = ys.map f) : xs = ys := by
  induction xs generalizing ys with
  | nil => exact (List.map_eq_nil_iff.mp h.symm).symm
  | cons x xs ih =>
      cases ys with
      | nil => cases h
      | cons y ys =>
          obtain ⟨hfirst, hrest⟩ := List.cons.inj h
          obtain ⟨hx, hxs⟩ := List.forall_mem_cons.mp hinj
          rw [hx y hfirst, ih hxs hrest]

namespace Expr

open Value (ofJson)

theorem documents_eq_map (args : List Expr) : documents args = args.map document := by
  induction args with
  | nil => rfl
  | cons arg args ih => rw [documents, ih, List.map_cons]

/-- What the record of a node says of its type. -/
def type : Expr → String
  | .number _ => "number"
  | .string _ => "string"
  | .bool _ => "bool"
  | .null => "null"
  | .score => "score"
  | .param _ => "param"
  | .unary _ _ => "unary"
  | .binary _ _ _ => "bin"
  | .ternary _ _ _ => "ternary"
  | .coalesce _ _ => "coalesce"
  | .call _ _ => "call"

/-- Two nodes of one type. -/
inductive SameType : Expr → Expr → Prop where
  | number (text text' : String) : SameType (.number text) (.number text')
  | string (text text' : String) : SameType (.string text) (.string text')
  | bool (b b' : Bool) : SameType (.bool b) (.bool b')
  | null : SameType .null .null
  | score : SameType .score .score
  | param (name name' : String) : SameType (.param name) (.param name')
  | unary (op op' : UnaryOp) (operand operand' : Expr) :
      SameType (.unary op operand) (.unary op' operand')
  | binary (op op' : BinaryOp) (left left' right right' : Expr) :
      SameType (.binary op left right) (.binary op' left' right')
  | ternary (cond cond' yes yes' no no' : Expr) :
      SameType (.ternary cond yes no) (.ternary cond' yes' no')
  | coalesce (left left' right right' : Expr) : SameType (.coalesce left right) (.coalesce left' right')
  | call (name name' : String) (args args' : List Expr) : SameType (.call name args) (.call name' args')

theorem sameType_of_type_eq {e e' : Expr} (h : e.type = e'.type) : SameType e e' := by
  cases e <;> cases e' <;> simp only [type, String.reduceEq] at h <;> constructor

/-- The fields of the record of a node beside its type. -/
def fields : Expr → List (String × Json)
  | .number text => [("value", .string text)]
  | .string text => [("value", .string text)]
  | .bool b => [("value", .bool b)]
  | .null => []
  | .score => []
  | .param name => [("name", .string name)]
  | .unary op operand => [("op", .string op.symbol), ("expr", operand.document)]
  | .binary op left right =>
      [("op", .string op.symbol), ("left", left.document), ("right", right.document)]
  | .ternary cond yes no => [("cond", cond.document), ("then", yes.document), ("else", no.document)]
  | .coalesce left right => [("left", left.document), ("right", right.document)]
  | .call name args => [("name", .string name), ("args", .array (args.map document))]

theorem document_eq_node (e : Expr) : e.document = node e.type e.fields := by
  cases e with
  | call name args => rw [document, documents_eq_map]; rfl
  | _ => rfl

theorem sameType_of_ofJson_eq {e e' : Expr} (h : ofJson e.document = ofJson e'.document) :
    SameType e e' := by
  have hlookup (e : Expr) : (("type", Json.string e.type) :: e.fields).reverse.lookup "type" =
      some (.string e.type) := by
    cases e <;> rfl
  rw [document_eq_node, document_eq_node] at h
  have htype := Value.lookup_of_record_eq h "type"
  rw [hlookup, hlookup] at htype
  exact sameType_of_type_eq (Value.string.inj (Option.some.inj htype))

theorem names_fields {e e' : Expr} (h : SameType e e') :
    e.fields.map Prod.fst = e'.fields.map Prod.fst ∧ ("type" :: e.fields.map Prod.fst).Nodup := by
  cases h <;> exact ⟨rfl, by simp [fields]⟩

theorem fields_of_ofJson_eq {e e' : Expr} (h : ofJson e.document = ofJson e'.document) :
    Entries.mapItems ofJson e.fields = Entries.mapItems ofJson e'.fields := by
  have hsame := sameType_of_ofJson_eq h
  obtain ⟨hnames, hnodup⟩ := names_fields hsame
  rw [document_eq_node, document_eq_node] at h
  have hitems := Value.items_of_record_eq h (congrArg ("type" :: ·) hnames) hnodup
  exact (List.cons.inj hitems).2

/-- Trees are told apart by the values of their records. -/
theorem eq_of_ofJson_eq {e e' : Expr} (h : ofJson e.document = ofJson e'.document) : e = e' := by
  induction e using induction_children generalizing e' with
  | step e ih =>
  have hfields := fields_of_ofJson_eq h
  cases sameType_of_ofJson_eq h with
  | null => rfl
  | score => rfl
  | number text text' =>
      have htext : text = text' := by
        simpa [fields, Entries.mapItems, Value.ofJson_string_inj] using hfields
      rw [htext]
  | string text text' =>
      have htext : text = text' := by
        simpa [fields, Entries.mapItems, Value.ofJson_string_inj] using hfields
      rw [htext]
  | bool b b' =>
      have hb : b = b' := by simpa [fields, Entries.mapItems, Value.ofJson_bool_inj] using hfields
      rw [hb]
  | param name name' =>
      have hname : name = name' := by
        simpa [fields, Entries.mapItems, Value.ofJson_string_inj] using hfields
      rw [hname]
  | unary op op' operand operand' =>
      obtain ⟨hop, hoperand⟩ :
          op.symbol = op'.symbol ∧ ofJson operand.document = ofJson operand'.document := by
        simpa [fields, Entries.mapItems, Value.ofJson_string_inj] using hfields
      rw [UnaryOp.symbol_inj hop, ih operand (by simp [children]) hoperand]
  | binary op op' left left' right right' =>
      obtain ⟨hop, hleft, hright⟩ : op.symbol = op'.symbol ∧
          ofJson left.document = ofJson left'.document ∧ ofJson right.document = ofJson right'.document := by
        simpa [fields, Entries.mapItems, Value.ofJson_string_inj] using hfields
      rw [BinaryOp.symbol_inj hop, ih left (by simp [children]) hleft, ih right (by simp [children]) hright]
  | ternary cond cond' yes yes' no no' =>
      obtain ⟨hcond, hyes, hno⟩ : ofJson cond.document = ofJson cond'.document ∧
          ofJson yes.document = ofJson yes'.document ∧ ofJson no.document = ofJson no'.document := by
        simpa [fields, Entries.mapItems] using hfields
      rw [ih cond (by simp [children]) hcond, ih yes (by simp [children]) hyes,
        ih no (by simp [children]) hno]
  | coalesce left left' right right' =>
      obtain ⟨hleft, hright⟩ :
          ofJson left.document = ofJson left'.document ∧ ofJson right.document = ofJson right'.document := by
        simpa [fields, Entries.mapItems] using hfields
      rw [ih left (by simp [children]) hleft, ih right (by simp [children]) hright]
  | call name name' args args' =>
      obtain ⟨hname, hargs⟩ : name = name' ∧
          args.map (ofJson ∘ document) = args'.map (ofJson ∘ document) := by
        simpa [fields, Entries.mapItems, Value.ofJson_string_inj, ofJson, Value.ofItems_eq_map] using hfields
      have hinj : ∀ arg ∈ args, ∀ arg', (ofJson ∘ document) arg = (ofJson ∘ document) arg' → arg = arg' :=
        fun arg harg _ => ih arg harg
      rw [hname, eq_of_map_eq hinj hargs]

theorem eq_of_canonicalValue_eq {e e' : Expr} (h : canonicalValue e = canonicalValue e') : e = e' :=
  eq_of_ofJson_eq h

end Expr

end StampedPrograms
