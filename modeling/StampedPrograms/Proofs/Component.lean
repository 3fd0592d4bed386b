import StampedPrograms.Stamp.Expression
import StampedPrograms.Stamp.Program
import StampedPrograms.Proofs.Digest
import StampedPrograms.Proofs.Expr.Identity

/-!
Components of all kinds that have identities, half of them hashed under the name of their kind and half of
them bare. Each kind has an entry that no other kind has, so two components of different kinds never share
the text that is hashed, whatever they contain.
-/

namespace StampedPrograms

/-- The kinds of components. -/
inductive ComponentKind where
  | policy
  | pack
  | plugins
  | programSymbols
  | ioSchema
  | transpiler
  | restrictions
  | tree
  | expressionSymbols
  | programEnvelope
  | expressionEnvelope
deriving DecidableEq

namespace ComponentKind

def all : List ComponentKind :=
  [policy, pack, plugins, programSymbols, ioSchema, transpiler, restrictions, tree, expressionSymbols,
    programEnvelope, expressionEnvelope]

/-- The name of an entry that the values of this kind have, and those of no other kind. -/
def mark : ComponentKind → String
  | .policy => "policy"
  | .pack => "program"
  | .plugins => "plugins"
  | .programSymbols => "symbols"
  | .ioSchema => "io"
  | .transpiler => "transpiler"
  | .restrictions => "maxDepth"
  | .tree => "type"
  | .expressionSymbols => "symbol_table_v1"
  | .programEnvelope => "surface"
  | .expressionEnvelope => "ast_hash"

end ComponentKind

/-- A component of some kind, whatever it contains. -/
inductive Component where
  | policy (p : Policy)
  | pack (p : ProgramPack)
  | plugins (names : List String)
  | programSymbols (table : ProgramSymbols)
  | ioSchema (schema : Json)
  | transpiler (name : String)
  | restrictions (p : ExpressionPolicy)
  | tree (e : Expr)
  | expressionSymbols (table : ExpressionSymbols)
  | programEnvelope (envelope : ProgramEnvelope)
  | expressionEnvelope (envelope : ExpressionEnvelope)

namespace Component

def kind : Component → ComponentKind
  | .policy _ => .policy
  | .pack _ => .pack
  | .plugins _ => .plugins
  | .programSymbols _ => .programSymbols
  | .ioSchema _ => .ioSchema
  | .transpiler _ => .transpiler
  | .restrictions _ => .restrictions
  | .tree _ => .tree
  | .expressionSymbols _ => .expressionSymbols
  | .programEnvelope _ => .programEnvelope
  | .expressionEnvelope _ => .expressionEnvelope

/-- The hash that stands for a component. A schema or a transpiler that is not the one in use is hashed as
that one is. -/
def identity : Component → String
  | .policy p => p.digest
  | .pack p => p.digest
  | .plugins names => ProgramEnvelope.capabilitiesDigest names
  | .programSymbols table => table.digest
  | .ioSchema schema => namespacedDigest "io" schema
  | .transpiler name => namespacedDigest "transpiler" name
  | .restrictions p => digest p
  | .tree e => digest e
  | .expressionSymbols table => table.digest
  | .programEnvelope envelope => digest envelope
  | .expressionEnvelope envelope => digest envelope

def document : Component → Json
  | .policy p => toJson p
  | .pack p => toJson p
  | .plugins names => toJson (Utf16.sort names)
  | .programSymbols table => toJson table
  | .ioSchema schema => schema
  | .transpiler name => toJson name
  | .restrictions p => toJson p
  | .tree e => toJson e
  | .expressionSymbols table => table.binding
  | .programEnvelope envelope => toJson envelope
  | .expressionEnvelope envelope => toJson envelope

/-- The name under which components of this kind are hashed, if any. -/
def tag? : Component → Option String
  | .policy _ => some "policy"
  | .pack _ => some "program"
  | .plugins _ => some "plugins"
  | .programSymbols _ => some "symbols"
  | .ioSchema _ => some "io"
  | .transpiler _ => some "transpiler"
  | _ => none

/-- The value whose text is hashed. -/
def value (c : Component) : Value :=
  match c.tag? with
  | some tag => (Value.ofJson c.document).inNamespace tag
  | none => Value.ofJson c.document

/-- The text that is hashed. -/
def text (c : Component) : List Char :=
  c.value.encode

theorem identity_eq (c : Component) : c.identity = textDigest c.text := by
  cases c <;> rfl

end Component

/-! ### Marks -/

namespace Value

/-- Whether this is a map with an entry of that name. -/
def hasEntry : Value → String → Bool
  | .map entries, name => (entries.lookup name).isSome
  | _, _ => false

theorem hasEntry_tagged (tag : String) (payload : Value) (name : String) :
    (tagged tag payload).hasEntry name = (name == tag) := by
  rw [tagged, hasEntry, List.lookup_cons]
  cases name == tag <;> rfl

theorem hasEntry_record (pairs : List (String × Json)) (name : String) :
    (ofJson (.ofPairs pairs)).hasEntry name = (pairs.map Prod.fst).contains name := by
  rw [ofJson_ofPairs, ofPairs, hasEntry, Bool.eq_iff_iff, List.contains_iff_mem, Entries.lookup_ofList_isSome_iff,
    Entries.names_mapItems]

/-- The kinds whose marks are among the entries of a value. -/
def markedKinds (v : Value) : List ComponentKind :=
  ComponentKind.all.filter fun kind => v.hasEntry kind.mark

theorem markedKinds_tagged (tag : String) (payload : Value) :
    (tagged tag payload).markedKinds = ComponentKind.all.filter fun kind => kind.mark == tag := by
  simp only [markedKinds, hasEntry_tagged]

theorem markedKinds_record (pairs : List (String × Json)) :
    (ofJson (.ofPairs pairs)).markedKinds =
      ComponentKind.all.filter fun kind => (pairs.map Prod.fst).contains kind.mark := by
  simp only [markedKinds, hasEntry_record]

end Value

namespace Component

open Value (markedKinds_tagged markedKinds_record)

/-- No entry of a node but its type is a mark. -/
theorem markedKinds_tree (e : Expr) : (Value.ofJson e.document).markedKinds = [.tree] := by
  rw [Expr.document_eq_node, Expr.node, markedKinds_record]
  cases e <;> rfl

theorem markedKinds_value (c : Component) : c.value.markedKinds = [c.kind] := by
  cases c with
  | tree e => exact markedKinds_tree e
  | restrictions _ | expressionSymbols _ | programEnvelope _ | expressionEnvelope _ =>
      exact markedKinds_record _
  | _ => exact markedKinds_tagged ..

theorem canonical_value (c : Component) : c.value.Canonical := by
  rw [value]
  split
  · exact Value.canonical_tagged _ (Value.canonical_ofJson c.document)
  · exact Value.canonical_ofJson c.document

theorem kind_eq_of_text_eq {a b : Component} (h : a.text = b.text) : a.kind = b.kind := by
  have hvalue : a.value = b.value := Value.eq_of_encode_eq a.canonical_value b.canonical_value h
  have hkinds : [a.kind] = [b.kind] := by rw [← markedKinds_value, ← markedKinds_value, hvalue]
  exact List.singleton_inj.mp hkinds

/-- What is hashed for a component is its text, and components of different kinds have different texts. -/
theorem kinds_apart :
    (∀ c : Component, c.identity = textDigest c.text) ∧
      ∀ a b : Component, a.kind ≠ b.kind → a.text ≠ b.text :=
  ⟨identity_eq, fun _ _ hkinds htext => hkinds (kind_eq_of_text_eq htext)⟩

/-- A tree whose string imitates the text of a plugin list, and one document under its kind and bare. -/
theorem kinds_apart_imitated :
    text (.tree (.string "\x7b\"plugins\":[\"idb\"]\x7d")) ≠ text (.plugins ["idb"]) ∧
      text (.ioSchema (toJson Expr.null)) ≠ text (.tree .null) :=
  ⟨kinds_apart.2 _ _ (by decide), kinds_apart.2 _ _ (by decide)⟩

end Component

end StampedPrograms
