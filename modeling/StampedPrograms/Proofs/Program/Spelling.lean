import StampedPrograms.Proofs.Effect.Spelling
import StampedPrograms.Proofs.Program.Run

/-!
Programs spelled for a storage. For every program there is one with the same text whose look-ups find
what the storage that compares ids by value finds: each key is spelled as the storage spells it when
the run comes to its block.
-/

namespace StampedPrograms

open Store (byValue)

/-- The block with its key as the storage spells it. -/
def Block.spelled (s : Store) (block : Block) : Block :=
  if block.op = "idb.get" then
    match block.stringArg "store", block.arg? "key" with
    | .ok store, some key => ⟨block.op, Entries.insert "key" (s.spelling store key) block.args⟩
    | _, _ => block
  else block

/-- The blocks of a run from here on, each spelled for the storage that it finds. -/
def spelledFrom (policy : Policy) (p : Progress) (s : Store) : List Block → List Block
  | [] => []
  | block :: blocks =>
      block.spelled s :: match block.perform byValue policy p s with
        | (.ok next, s) => spelledFrom policy next s blocks
        | (.error _, _) => blocks

namespace Block

variable {s : Store} {block : Block}

theorem action_get (hop : block.op = "idb.get") (policy : Policy) :
    block.action policy = do
      block.requireStorage policy
      return .get (← block.stringArg "store") (← block.requireArg "key") := by
  rw [action, hop]
  rfl

/-- What a look-up names. -/
structure Seeks (block : Block) (store : String) (key : Json) : Prop where
  op : block.op = "idb.get"
  store : block.stringArg "store" = .ok store
  key : block.arg? "key" = some key

theorem Seeks.action {store : String} {key : Json} (h : block.Seeks store key) (policy : Policy) :
    block.action policy = (block.requireStorage policy).map fun _ => .get store key := by
  rw [action_get h.op, h.store, requireArg, h.key]
  cases block.requireStorage policy <;> rfl

theorem seeks_of_action {policy : Policy} {store : String} {key : Json}
    (h : block.action policy = .ok (.get store key)) : block.Seeks store key := by
  cases asks_of_action h with
  | get op _ names holds => exact ⟨op, names, holds⟩

/-- A block that looks something up is given another key; any other block stays as it is. -/
theorem spelled_cases (s : Store) (block : Block) :
    (∃ store key, block.Seeks store key ∧
      block.spelled s = ⟨block.op, Entries.insert "key" (s.spelling store key) block.args⟩) ∨
    (block.spelled s = block ∧ ∀ store key, ¬ block.Seeks store key) := by
  by_cases hop : block.op = "idb.get"
  · rw [spelled, if_pos hop]
    split
    · next store key hstore hkey => exact .inl ⟨store, key, ⟨hop, hstore, hkey⟩, rfl⟩
    · next hnone => exact .inr ⟨rfl, fun store key h => hnone store key h.store h.key⟩
  · right
    rw [spelled, if_neg hop]
    exact ⟨rfl, fun _ _ h => hop h.op⟩

theorem spelled_op (s : Store) (block : Block) : (block.spelled s).op = block.op := by
  rcases block.spelled_cases s with ⟨_, _, _, hspelled⟩ | ⟨hspelled, _⟩
  · rw [hspelled]
  · rw [hspelled]

theorem image_spelled (hs : s.Ordered) (hblock : (Json.object block.args).Ordered) :
    (block.spelled s).image = block.image := by
  rcases block.spelled_cases s with ⟨store, key, hseeks, hspelled⟩ | ⟨hspelled, _⟩
  · have hlookup := (arg?_eq_some.mp hseeks.key).1
    have hspelling : Value.inOrder (s.spelling store key) = Value.inOrder key :=
      Store.alike_spelling hs store (hblock.lookup hlookup)
    have himage : (Json.image block.args).lookup "key" = some (Value.inOrder key) := by
      rw [Json.image, Entries.lookup_mapItems, hlookup, Option.map_some]
    cases hblock with
    | object ascending _ =>
        rw [hspelled, image, image, Json.image, Entries.insert_mapItems, hspelling]
        exact congrArg (block.op, ·) ((ascending.mapItems _).insert_eq_self himage)
  · rw [hspelled]

theorem ordered_spelled (hs : s.Ordered) (hblock : (Json.object block.args).Ordered) :
    (Json.object (block.spelled s).args).Ordered := by
  rcases block.spelled_cases s with ⟨store, key, hseeks, hspelled⟩ | ⟨hspelled, _⟩
  · rw [hspelled]
    have hkey := hblock.lookup (arg?_eq_some.mp hseeks.key).1
    exact hblock.insert "key" (Store.ordered_spelling hs store hkey)
  · rw [hspelled]
    exact hblock

theorem Seeks.insert_key {store : String} {key spelling : Json} (h : block.Seeks store key)
    (hspelling : spelling ≠ .null) :
    Seeks ⟨block.op, Entries.insert "key" spelling block.args⟩ store spelling := by
  refine ⟨h.op, ?_, ?_⟩
  · have hstore := h.store
    rw [stringArg, arg?, Json.present?, Json.member?] at hstore ⊢
    dsimp only
    rw [Entries.lookup_insert_ne (by decide)]
    exact hstore
  · exact arg?_eq_some.mpr ⟨Entries.lookup_insert_self .., hspelling⟩

/-- The storage does for the spelled block what the storage that compares ids by value does for the
block itself. -/
theorem perform_spelled (policy : Policy) (p : Progress) (s : Store) (block : Block) :
    (block.spelled s).perform Store.handler policy p s = block.perform byValue policy p s := by
  rcases block.spelled_cases s with ⟨store, key, hseeks, hspelled⟩ | ⟨hspelled, hnone⟩
  · have hnull : s.spelling store key ≠ .null := by
      intro hnull
      have hvalue := s.ofJson_spelling store key
      rw [hnull] at hvalue
      exact (arg?_eq_some.mp hseeks.key).2 (Json.eq_null_of_ofJson hvalue.symm)
    have hget : Store.handler.get store (s.spelling store key) s = byValue.get store key s :=
      congrArg (fun found => (Except.ok found, s)) (s.get_spelling store key)
    rw [hspelled, perform, perform, (hseeks.insert_key hnull).action, hseeks.action]
    rw [requireStorage, requireStorage]
    cases policy.allowStorage with
    | false => rfl
    | true => exact congrArg (fun step => (step.1.map fun row => p.withLast (row.getD .null), step.2)) hget
  · rw [hspelled, perform, perform]
    cases haction : block.action policy with
    | error e => rfl
    | ok action =>
        cases action with
        | get store key => exact absurd (seeks_of_action haction) (hnone store key)
        | _ => rfl

/-- The storage keeps its rows in order. -/
theorem ordered_perform (policy : Policy) (p : Progress) (hs : s.Ordered)
    (hblock : (Json.object block.args).Ordered) : (block.perform byValue policy p s).2.Ordered := by
  rw [perform]
  cases haction : block.action policy with
  | error e => exact hs
  | ok action =>
      cases asks_of_action haction with
      | @put store value _ _ _ holds =>
          have hvalue := hblock.lookup (arg?_eq_some.mp holds).1
          cases value with
          | object row => exact hs.append store (Store.ordered_identified _ hvalue)
          | _ => exact hs
      | _ => exact hs

end Block

/-! ### Runs -/

theorem runFrom_spelledFrom (policy : Policy) (p : Progress) (s : Store) (blocks : List Block) :
    runFrom Store.handler policy p s (spelledFrom policy p s blocks) =
      runFrom byValue policy p s blocks := by
  induction blocks generalizing p s with
  | nil => rfl
  | cons block blocks ih =>
      rw [spelledFrom, runFrom, runFrom, Block.perform_spelled]
      rcases block.perform byValue policy p s with ⟨_ | next, s'⟩
      · rfl
      · exact ih next s'

/-- Blocks that look nothing up do the same on both storages. -/
theorem runFrom_byValue (policy : Policy) (p : Progress) (s : Store) {blocks : List Block}
    (h : ∀ block ∈ blocks, block.op ≠ "idb.get") :
    runFrom Store.handler policy p s blocks = runFrom byValue policy p s blocks := by
  induction blocks generalizing p s with
  | nil => rfl
  | cons block blocks ih =>
      obtain ⟨hblock, hrest⟩ := List.forall_mem_cons.mp h
      have hstep := Block.perform_spelled policy p s block
      rw [Block.spelled, if_neg hblock] at hstep
      rw [runFrom, runFrom, hstep]
      rcases block.perform byValue policy p s with ⟨_ | next, s'⟩
      · rfl
      · exact ih next s' hrest

theorem images_spelledFrom (policy : Policy) (p : Progress) {s : Store} (hs : s.Ordered)
    {blocks : List Block} (hblocks : ∀ block ∈ blocks, (Json.object block.args).Ordered) :
    (spelledFrom policy p s blocks).map Block.image = blocks.map Block.image := by
  induction blocks generalizing p s with
  | nil => rfl
  | cons block blocks ih =>
      obtain ⟨hblock, hrest⟩ := List.forall_mem_cons.mp hblocks
      have hstate := Block.ordered_perform policy p hs hblock
      rw [spelledFrom, List.map_cons, List.map_cons, Block.image_spelled hs hblock]
      revert hstate
      rcases block.perform byValue policy p s with ⟨_ | next, s'⟩
      · exact fun _ => rfl
      · exact fun hstate => congrArg (block.image :: ·) (ih next hstate hrest)

/-- Blocks that are spelled name their operations and keep their members in order as before. -/
theorem forall_mem_spelledFrom (policy : Policy) (p : Progress) {s : Store} (hs : s.Ordered)
    {blocks : List Block} (hblocks : ∀ block ∈ blocks, block.op ≠ "" ∧ (Json.object block.args).Ordered) :
    ∀ block ∈ spelledFrom policy p s blocks, block.op ≠ "" ∧ (Json.object block.args).Ordered := by
  induction blocks generalizing p s with
  | nil => exact hblocks
  | cons block blocks ih =>
      obtain ⟨⟨hop, hblock⟩, hrest⟩ := List.forall_mem_cons.mp hblocks
      have hspelled : (block.spelled s).op ≠ "" ∧ (Json.object (block.spelled s).args).Ordered :=
        ⟨block.spelled_op s ▸ hop, Block.ordered_spelled hs hblock⟩
      have hstate := Block.ordered_perform policy p hs hblock
      rw [spelledFrom]
      refine List.forall_mem_cons.mpr ⟨hspelled, ?_⟩
      revert hstate
      rcases block.perform byValue policy p s with ⟨_ | next, s'⟩
      · exact fun _ => hrest
      · exact fun hstate => ih next hstate hrest

namespace ProgramPack

/-- The program spelled for a run from this storage. -/
def spelled (policy : Policy) (s : Store) (pack : ProgramPack) : ProgramPack :=
  { pack with program := { pack.program with blocks := spelledFrom policy {} s pack.blocks } }

theorem run_spelled (policy : Policy) (s : Store) (pack : ProgramPack) :
    (pack.spelled policy s).run Store.handler policy s = pack.run byValue policy s :=
  runFrom_spelledFrom policy {} s pack.blocks

theorem Normal.spelled {pack : ProgramPack} (h : pack.Normal) (policy : Policy) {s : Store}
    (hs : s.Ordered) : (pack.spelled policy s).Normal := by
  obtain ⟨hformat, hops, hordered⟩ := normal_iff.mp h
  have hblocks := forall_mem_spelledFrom policy {} hs fun block hblock =>
    ⟨hops block hblock, hordered block hblock⟩
  exact normal_iff.mpr ⟨hformat, fun block hblock => (hblocks block hblock).1,
    fun block hblock => (hblocks block hblock).2⟩

theorem text_spelled {pack : ProgramPack} (h : pack.Ordered) (policy : Policy) {s : Store}
    (hs : s.Ordered) : (pack.spelled policy s).text = pack.text :=
  text_eq_of_images (images_spelledFrom policy {} hs h)

end ProgramPack

end StampedPrograms
