import StampedPrograms.Program.Action
import StampedPrograms.Program.Admission
import StampedPrograms.Proofs.Error
import StampedPrograms.Proofs.Json.Alike

/-!
Blocks with alike arguments ask for alike actions, or fail with the same error.
-/

namespace StampedPrograms

/-- The same operation with alike arguments. -/
structure Block.Alike (a b : Block) : Prop where
  op : a.op = b.op
  args : Json.image a.args = Json.image b.args

inductive Body.Alike : Body → Body → Prop where
  | last : Alike .last .last
  | given {a b : Json} (same : a.Alike b) : Alike (.given a) (.given b)

inductive Action.Alike : Action → Action → Prop where
  | get (store : String) {a b : Json} (same : a.Alike b) : Alike (.get store a) (.get store b)
  | put (store : String) {a b : Json} (same : a.Alike b) : Alike (.put store a) (.put store b)
  | query (store : String) {a b : Json} (same : a.Alike b) : Alike (.query store a) (.query store b)
  | reply (event : String) {a b : Body} (same : a.Alike b) : Alike (.reply event a) (.reply event b)
  | emit (event : String) {a b : Body} (same : a.Alike b) : Alike (.emit event a) (.emit event b)

namespace Block

variable {a b : Block}

theorem Alike.arg? (h : a.Alike b) (name : String) :
    (a.arg? name).map Value.inOrder = (b.arg? name).map Value.inOrder :=
  (Json.alike_object.mpr h.args).present? name

theorem Alike.stringArg_eq (h : a.Alike b) (name : String) : a.stringArg name = b.stringArg name := by
  rw [Block.stringArg, Block.stringArg, h.op]
  rcases Json.option_alike (h.arg? name) with ⟨hx, hy⟩ | ⟨x, y, hx, hy, hxy⟩
  · rw [hx, hy]
  · rw [hx, hy]
    cases hxy.parts <;> rfl

theorem Alike.eventName_eq (h : a.Alike b) : a.eventName = b.eventName := by
  rw [Block.eventName, Block.eventName, h.stringArg_eq, h.op]

theorem Alike.requireStorage_eq (h : a.Alike b) (policy : Policy) :
    a.requireStorage policy = b.requireStorage policy := by
  rw [Block.requireStorage, Block.requireStorage, h.op]

theorem Alike.requireArg (h : a.Alike b) (name : String) :
    Related Json.Alike (a.requireArg name) (b.requireArg name) := by
  rw [Block.requireArg, Block.requireArg, h.op]
  rcases Json.option_alike (h.arg? name) with ⟨hx, hy⟩ | ⟨x, y, hx, hy, hxy⟩
  · rw [hx, hy]
    exact .error _
  · rw [hx, hy]
    exact .ok hxy

theorem Alike.argD (h : a.Alike b) (name : String) (default : Json) :
    ((a.arg? name).getD default).Alike ((b.arg? name).getD default) := by
  rcases Json.option_alike (h.arg? name) with ⟨hx, hy⟩ | ⟨x, y, hx, hy, hxy⟩
  · rw [hx, hy]
    rfl
  · rw [hx, hy]
    exact hxy

theorem Alike.body (h : a.Alike b) : Body.Alike a.body b.body := by
  have hgiven := Body.Alike.given (h.argD "body" (.object []))
  rw [Block.body, Block.body]
  rcases Json.option_alike (h.arg? "body_from") with ⟨hx, hy⟩ | ⟨x, y, hx, hy, hxy⟩
  · rw [hx, hy]
    exact hgiven
  · rw [hx, hy]
    cases hxy.parts with
    | string s =>
        split
        · exact .last
        · exact hgiven
    | _ => exact hgiven

theorem Alike.action (h : a.Alike b) (policy : Policy) :
    Related Action.Alike (a.action policy) (b.action policy) := by
  rw [Block.action, Block.action, h.op, h.requireStorage_eq, h.eventName_eq]
  split
  · refine .bind_same _ fun _ => ?_
    rw [h.stringArg_eq]
    refine .bind_same _ fun store => .bind (h.requireArg "key") fun key key' hkey => ?_
    exact .ok (.get store hkey)
  · refine .bind_same _ fun _ => ?_
    rw [h.stringArg_eq]
    refine .bind_same _ fun store => .bind (h.requireArg "value") fun item item' hitem => ?_
    exact .ok (.put store hitem)
  · refine .bind_same _ fun _ => ?_
    rw [h.stringArg_eq]
    exact .bind_same _ fun store => .ok (.query store (h.argD "kql" .null))
  · exact .bind_same _ fun event => .ok (.reply event h.body)
  · exact .bind_same _ fun event => .ok (.emit event h.body)
  · exact .error _

/-! ### What a block asks for -/

variable {block : Block} {policy : Policy}

theorem arg?_eq_some {name : String} {doc : Json} :
    block.arg? name = some doc ↔ block.args.lookup name = some doc ∧ doc ≠ .null := by
  rw [Block.arg?, Json.present?, Json.member?]
  constructor
  · intro h
    split at h
    · cases h
    · next hnull => exact ⟨h, fun hdoc => hnull (hdoc ▸ h)⟩
  · rintro ⟨hlookup, hnull⟩
    rw [hlookup]
    cases doc with
    | null => exact absurd rfl hnull
    | _ => rfl

theorem requireStorage_eq_ok : block.requireStorage policy = .ok () ↔ policy.allowStorage = true := by
  rw [requireStorage]
  cases policy.allowStorage <;> simp

theorem requireArg_eq_ok {name : String} {doc : Json} :
    block.requireArg name = .ok doc ↔ block.arg? name = some doc := by
  rw [Block.requireArg]
  cases block.arg? name <;> simp

/-- What a block must hold to ask for an action. -/
inductive Asks (policy : Policy) (block : Block) : Action → Prop where
  | get {store : String} {key : Json} (op : block.op = "idb.get")
      (allowed : policy.allowStorage = true) (names : block.stringArg "store" = .ok store)
      (holds : block.arg? "key" = some key) : Asks policy block (.get store key)
  | put {store : String} {value : Json} (op : block.op = "idb.put")
      (allowed : policy.allowStorage = true) (names : block.stringArg "store" = .ok store)
      (holds : block.arg? "value" = some value) : Asks policy block (.put store value)
  | query {store : String} (op : block.op = "idb.query")
      (allowed : policy.allowStorage = true) (names : block.stringArg "store" = .ok store) :
      Asks policy block (.query store ((block.arg? "kql").getD .null))
  | reply {event : String} (op : block.op = "event.reply") (names : block.eventName = .ok event) :
      Asks policy block (.reply event block.body)
  | emit {event : String} (op : block.op = "event.emit") (names : block.eventName = .ok event) :
      Asks policy block (.emit event block.body)

/-- All that a block can ask for. -/
theorem asks_of_action {action : Action} (h : block.action policy = .ok action) :
    block.Asks policy action := by
  rw [Block.action] at h
  split at h
  · obtain ⟨_, hstorage, h⟩ := bind_eq_ok.mp h
    obtain ⟨store, hstore, h⟩ := bind_eq_ok.mp h
    obtain ⟨key, hkey, h⟩ := bind_eq_ok.mp h
    cases h
    exact .get ‹_› (requireStorage_eq_ok.mp hstorage) hstore (requireArg_eq_ok.mp hkey)
  · obtain ⟨_, hstorage, h⟩ := bind_eq_ok.mp h
    obtain ⟨store, hstore, h⟩ := bind_eq_ok.mp h
    obtain ⟨item, hitem, h⟩ := bind_eq_ok.mp h
    cases h
    exact .put ‹_› (requireStorage_eq_ok.mp hstorage) hstore (requireArg_eq_ok.mp hitem)
  · obtain ⟨_, hstorage, h⟩ := bind_eq_ok.mp h
    obtain ⟨store, hstore, h⟩ := bind_eq_ok.mp h
    cases h
    exact .query ‹_› (requireStorage_eq_ok.mp hstorage) hstore
  · obtain ⟨event, hevent, h⟩ := bind_eq_ok.mp h
    cases h
    exact .reply ‹_› hevent
  · obtain ⟨event, hevent, h⟩ := bind_eq_ok.mp h
    cases h
    exact .emit ‹_› hevent
  · cases h

end Block

end StampedPrograms
