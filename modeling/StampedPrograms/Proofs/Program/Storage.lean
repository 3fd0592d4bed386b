import StampedPrograms.Proofs.Effect.History
import StampedPrograms.Proofs.Program.Calls

/-!
What runs do to the storage. Every run leads to a state that calls lead to. A block that fails, at whatever point,
has said nothing and leaves the rows and the trace as they were, so a run that fails has done what the blocks in
front of the failing one do.
-/

namespace StampedPrograms

/-! ### Runs as calls -/

section

variable {σ : Type} {handler : Handler σ} {start s : σ}

theorem Handler.Reachable.perform (h : handler.Reachable start s) (policy : Policy) (p : Progress)
    (block : Block) : handler.Reachable start (block.perform handler policy p s).2 := by
  rw [Block.perform]
  cases block.action policy with
  | error e => exact h
  | ok action =>
      cases action with
      | get store key => exact h.get store key
      | put store value => exact h.put store value
      | query store spec => exact h.query store spec
      | reply event body => exact h
      | emit event body => exact h

theorem Handler.Reachable.runFrom (h : handler.Reachable start s) (policy : Policy) (p : Progress)
    (blocks : List Block) : handler.Reachable start (runFrom handler policy p s blocks).state := by
  induction blocks generalizing p s with
  | nil => exact h
  | cons block blocks ih =>
      have hperform := h.perform policy p block
      rw [StampedPrograms.runFrom]
      cases hblock : block.perform handler policy p s with
      | mk answer next =>
          rw [hblock] at hperform
          cases answer with
          | ok p' => exact ih hperform p'
          | error e => exact hperform

end

/-! ### Failures -/

section

variable {handler : Handler Store} {policy : Policy} {p : Progress} {s t : Store} {e : Error}

/-- A block fails without a trace: before its call, or because its call was refused. -/
theorem Block.same_of_fails (hserves : Store.Serves handler) {block : Block}
    (h : block.perform handler policy p s = (.error e, t)) : s.Same t := by
  rw [perform] at h
  cases haction : block.action policy with
  | error e' =>
      rw [haction] at h
      cases h
      exact .refl s
  | ok action =>
      rw [haction] at h
      cases action with
      | get store key =>
          obtain ⟨t', hget, -⟩ := hserves.get store key s
          simp only [Action.perform, hget] at h
          cases h
      | put store value =>
          rcases hserves.put_cases store value s with ⟨row, -, hput⟩ | ⟨e', hput⟩
          · simp only [Action.perform, hput] at h
            cases h
          · simp only [Action.perform, hput] at h
            cases h
            exact .refl s
      | query store spec =>
          have hsame := hserves.same_query store spec s
          have hstate : t = (handler.query store spec s).2 := congrArg Prod.snd h.symm
          rw [hstate]
          exact hsame
      | reply event body => cases h
      | emit event body => cases h

namespace ProgramPack

/-- The program of the first blocks. -/
def cut (pack : ProgramPack) (count : Nat) : ProgramPack :=
  { pack with program := { pack.program with blocks := pack.blocks.take count } }

theorem blocks_cut {pack : ProgramPack} {done after : List Block} (h : pack.blocks = done ++ after) :
    (pack.cut done.length).blocks = done := by
  show pack.blocks.take done.length = done
  rw [h, List.take_left]

/-- A run that fails does what the program of the blocks in front of its failing block does, which succeeds: it
replies and emits the same, and leaves the same rows and the same trace. The blocks behind the failing one have no
part in it. -/
theorem failed_run {handler : Handler Store} (hhandler : handler = Store.handler ∨ handler = Store.opening)
    {pack : ProgramPack} {policy : Policy} {s : Store} {e : Error}
    (h : (pack.run handler policy s).failure = some e) :
    ∃ i < pack.blocks.length,
      ((pack.cut i).run handler policy s).failure = none ∧
      ((pack.cut i).run handler policy s).outcome = (pack.run handler policy s).outcome ∧
      ((pack.cut i).run handler policy s).state.Same (pack.run handler policy s).state ∧
      (pack.cut (i + 1)).run handler policy s = pack.run handler policy s := by
  have hserves := Store.serves_of hhandler
  have hends := ends_runFrom handler policy {} s pack.blocks
  unfold run at h ⊢
  generalize hblocks : pack.blocks = blocks at hends h ⊢
  generalize runFrom handler policy {} s blocks = run at hends h ⊢
  -- A run that fails is a stretch of blocks that succeed, the failing block, and blocks that are not reached.
  cases hends with
  | completed => cases h
  | @failed done after block q t u e reaches fails =>
      have hsplit : pack.blocks = (done ++ [block]) ++ after := by
        rw [hblocks, List.append_assoc, List.singleton_append]
      have hlength : done.length + 1 = (done ++ [block]).length := by
        rw [List.length_append, List.length_singleton]
      refine ⟨done.length, ?_, ?_⟩
      · rw [List.length_append, List.length_cons]
        omega
      · rw [blocks_cut hblocks, hlength, blocks_cut hsplit, reaches.runFrom_eq, reaches.runFrom_append,
          runFrom_of_fails fails]
        exact ⟨rfl, rfl, Block.same_of_fails hserves fails, rfl⟩

/-- Tells that it starts, keeps a visit, and then asks for a number of rows that is none. -/
def stumble : ProgramPack where
  program := ⟨"stumble", "main", [
    ⟨"event.emit", [("event", .string "started")]⟩,
    ⟨"idb.put", [("store", .string "visits"), ("value", .object [("id", .string "ada")])]⟩,
    ⟨"idb.query", [("kql", .object [("LIMIT", .string "all")]), ("store", .string "visitors")]⟩,
    ⟨"event.emit", [("event", .string "ended")]⟩]⟩

theorem failed_run_stumble :
    (stumble.run Store.opening (visitPolicy true) {}).failure = some (.validation .limit) ∧
    ∃ i < 4, ((stumble.cut i).run Store.opening (visitPolicy true) {}).failure = none ∧
      ((stumble.cut i).run Store.opening (visitPolicy true) {}).outcome =
        { emits := [{ event := "started", input := .object [] }] } ∧
      ((stumble.cut i).run Store.opening (visitPolicy true) {}).state.rows "visits" =
        [[("id", .string "ada")]] := by
  have hfails : (stumble.run Store.opening (visitPolicy true) {}).failure = some (.validation .limit) := rfl
  obtain ⟨i, hi, hsucceeds, houtcome, hsame, -⟩ := failed_run (.inr rfl) hfails
  refine ⟨hfails, i, hi, hsucceeds, houtcome, ?_⟩
  rw [← hsame.rows]
  rfl

end ProgramPack

end

end StampedPrograms
