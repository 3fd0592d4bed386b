import Mathlib.Data.List.Forall2
import StampedPrograms.Proofs.Program.Progress
import StampedPrograms.Proofs.Program.Step

/-!
What a run asks of the storage. Every block that acts on the storage makes one call, for its own store and
argument, and no other block makes any; the run ends with the calls of its first failing block. Without the
capability nothing is asked, whatever the handler, and an admitted program asks only for what its policy
lists.
-/

namespace StampedPrograms

/-- Blocks that all succeed, with the calls they make and the progress they lead to. -/
inductive Performs : Progress → List Block → List HandlerCall → Progress → Prop where
  | nil (p : Progress) : Performs p [] [] p
  | cons {p p' q : Progress} {block : Block} {blocks : List Block} {own calls : List HandlerCall}
      (first : block.Succeeds p p' own) (rest : Performs p' blocks calls q) :
      Performs p (block :: blocks) (own ++ calls) q

/-- A block that succeeds makes one call if it uses the storage and none if it does not. -/
theorem Block.Succeeds.each {block : Block} {p q : Progress} {calls : List HandlerCall}
    (h : block.Succeeds p q calls) : List.Forall₂ Calls ([block].filter usesStorage) calls := by
  cases h with
  | answered calls answer =>
      rw [List.filter_cons_of_pos calls.usesStorage]
      exact .cons calls .nil
  | replied op names =>
      have hevent : block.usesStorage = false := by rw [usesStorage, op]; rfl
      simp [hevent]
  | emitted op names =>
      have hevent : block.usesStorage = false := by rw [usesStorage, op]; rfl
      simp [hevent]

/-- The calls are those of the blocks that use the storage, in their order. -/
theorem Performs.each {p q : Progress} {blocks : List Block} {calls : List HandlerCall}
    (h : Performs p blocks calls q) : List.Forall₂ Block.Calls (blocks.filter Block.usesStorage) calls := by
  induction h with
  | nil => exact .nil
  | cons first rest ih =>
      rw [← List.singleton_append, List.filter_append]
      exact List.rel_append first.each ih

theorem exists_of_mem_calls {blocks : List Block} {calls : List HandlerCall}
    (h : List.Forall₂ Block.Calls blocks calls) {call : HandlerCall} (hcall : call ∈ calls) :
    ∃ block ∈ blocks, block.Calls call := by
  induction h with
  | nil => cases hcall
  | @cons block first _ _ hfirst _ ih =>
      rcases List.mem_cons.mp hcall with rfl | hcall
      · exact ⟨block, List.mem_cons_self .., hfirst⟩
      · obtain ⟨other, hother, hcalls⟩ := ih hcall
        exact ⟨other, List.mem_cons_of_mem _ hother, hcalls⟩

section

variable {σ : Type} {handler : Handler σ} {policy : Policy} {p : Progress} {s : σ}

theorem Reaches.recorded {q : Progress} {t : σ} {blocks : List Block}
    (h : Reaches handler policy p s blocks q t) (kept : List HandlerCall) :
    ∃ calls, Reaches handler.recorded policy p (s, kept) blocks q (t, kept ++ calls) ∧
      Performs p blocks calls q := by
  induction h generalizing kept with
  | nil p s => exact ⟨[], by rw [List.append_nil]; exact .nil p _, .nil p⟩
  | @cons p p' q s s' t block blocks first rest ih =>
      obtain ⟨own, hrecorded, hdoes⟩ := block.does_recorded handler policy p s kept
      rw [first] at hrecorded hdoes
      obtain ⟨calls, hrest, hperforms⟩ := ih (kept ++ own)
      refine ⟨own ++ calls, ?_, .cons hdoes.succeeds hperforms⟩
      rw [← List.append_assoc]
      exact .cons hrecorded hrest

/-- How the calls of a run come about. If no block fails, they are those of all blocks that use the
storage. Otherwise they are those of the blocks before the first that fails, and its own. -/
inductive Asked (handler : Handler σ) (policy : Policy) (p : Progress) (s : σ) :
    List Block → Option Error → List HandlerCall → Prop where
  | all {blocks : List Block} {calls : List HandlerCall}
      (each : List.Forall₂ Block.Calls (blocks.filter Block.usesStorage) calls) :
      Asked handler policy p s blocks none calls
  | upTo {done after : List Block} {block : Block} {e : Error} {calls own : List HandlerCall}
      (completes : (runFrom handler policy p s done).failure = none)
      (stops : (runFrom handler policy p s (done ++ [block])).failure = some e)
      (each : List.Forall₂ Block.Calls (done.filter Block.usesStorage) calls)
      (fails : block.Fails policy e own) :
      Asked handler policy p s (done ++ block :: after) (some e) (calls ++ own)

theorem Asked.exists_block {blocks : List Block} {failure : Option Error} {calls : List HandlerCall}
    (h : Asked handler policy p s blocks failure calls) {call : HandlerCall} (hcall : call ∈ calls) :
    ∃ block ∈ blocks, block.Calls call := by
  cases h with
  | all each =>
      obtain ⟨block, hblock, hcalls⟩ := exists_of_mem_calls each hcall
      exact ⟨block, List.mem_of_mem_filter hblock, hcalls⟩
  | @upTo done after block e calls own completes stops each fails =>
      rcases List.mem_append.mp hcall with hcall | hown
      · obtain ⟨block, hblock, hcalls⟩ := exists_of_mem_calls each hcall
        exact ⟨block, List.mem_append_left _ (List.mem_of_mem_filter hblock), hcalls⟩
      · cases fails with
        | unread => cases hown
        | refused allowed calls refused =>
            rw [List.mem_singleton.mp hown]
            exact ⟨block, List.mem_append_right _ (List.mem_cons_self ..), calls⟩

/-- The run with its calls kept is the run, and its calls are accounted for. -/
theorem runFrom_recorded (handler : Handler σ) (policy : Policy) (p : Progress) (s : σ) (blocks : List Block) :
    ∃ calls, runFrom handler.recorded policy p (s, []) blocks =
        ⟨(runFrom handler policy p s blocks).failure, (runFrom handler policy p s blocks).outcome,
          (runFrom handler policy p s blocks).state, calls⟩ ∧
      Asked handler policy p s blocks (runFrom handler policy p s blocks).failure calls := by
  have hends := ends_runFrom handler policy p s blocks
  generalize runFrom handler policy p s blocks = run at hends
  cases hends with
  | completed reaches =>
      obtain ⟨calls, hrecorded, hperforms⟩ := reaches.recorded []
      exact ⟨calls, hrecorded.runFrom_eq, .all hperforms.each⟩
  | @failed done after block q t u e reaches fails =>
      obtain ⟨calls, hrecorded, hperforms⟩ := reaches.recorded []
      obtain ⟨own, hperform, hdoes⟩ := block.does_recorded handler policy q t calls
      rw [fails] at hperform hdoes
      refine ⟨calls ++ own, ?_, .upTo ?_ ?_ hperforms.each hdoes.fails⟩
      · rw [hrecorded.runFrom_append]
        exact runFrom_of_fails hperform after
      · rw [reaches.runFrom_eq]
      · rw [reaches.runFrom_append, runFrom_of_fails fails]

theorem runFrom_withheld {τ : Type} (h : policy.allowStorage = false) (handler : Handler σ)
    (other : Handler τ) (p : Progress) (s : σ) (t : τ) (blocks : List Block) :
    runFrom handler policy p s blocks =
      ⟨(runFrom other policy p t blocks).failure, (runFrom other policy p t blocks).outcome, s⟩ := by
  induction blocks generalizing p t with
  | nil => rfl
  | cons block blocks ih =>
      rw [runFrom, runFrom, block.perform_withheld h handler other p s t]
      cases block.perform other policy p t with
      | mk answer t' =>
          cases answer with
          | error e => rfl
          | ok p' => exact ih p' t'

namespace ProgramPack

theorem authorize_eq_ok {pack : ProgramPack} :
    pack.authorize policy = .ok () ↔ ∀ block ∈ pack.blocks, block.op ∈ policy.allowedRoutes := by
  have hfind : (pack.blocks.find? fun block => !policy.allowsRoute block.op) = none ↔
      ∀ block ∈ pack.blocks, block.op ∈ policy.allowedRoutes := by
    simp [Policy.allowsRoute]
  rw [authorize, ← hfind]
  cases pack.blocks.find? fun block => !policy.allowsRoute block.op <;> simp

/-- A run asks what its blocks stand for, one call each up to the first failure, and is the same run when
its calls are kept. Without the capability it asks nothing, leaves the handler as it was and ends as with any
other handler. If the program is admitted, every call is that of a block that the policy lists. -/
theorem calls_accounted (pack : ProgramPack) (handler : Handler σ) (policy : Policy) (s : σ) :
    ∃ calls, pack.run handler.recorded policy (s, []) =
        ⟨(pack.run handler policy s).failure, (pack.run handler policy s).outcome,
          (pack.run handler policy s).state, calls⟩ ∧
      Asked handler policy {} s pack.blocks (pack.run handler policy s).failure calls ∧
      (policy.allowStorage = false → calls = [] ∧ (pack.run handler policy s).state = s ∧
        ∀ {τ : Type} (other : Handler τ) (t : τ),
          (pack.run other policy t).failure = (pack.run handler policy s).failure ∧
          (pack.run other policy t).outcome = (pack.run handler policy s).outcome) ∧
      (pack.authorize policy = .ok () →
        ∀ call ∈ calls, ∃ block ∈ pack.blocks, block.op ∈ policy.allowedRoutes ∧ block.Calls call) := by
  obtain ⟨calls, hrecorded, hasked⟩ := runFrom_recorded handler policy {} s pack.blocks
  refine ⟨calls, hrecorded, hasked, fun hwithheld => ⟨?_, ?_, fun other t => ?_⟩, fun hadmitted call hcall => ?_⟩
  · have hsame := runFrom_withheld hwithheld handler.recorded handler {} (s, []) s pack.blocks
    exact congrArg (fun run => run.state.2) (hrecorded.symm.trans hsame)
  · exact congrArg Run.state (runFrom_withheld hwithheld handler handler {} s s pack.blocks)
  · have hsame := runFrom_withheld hwithheld other handler {} t s pack.blocks
    exact ⟨congrArg Run.failure hsame, congrArg Run.outcome hsame⟩
  · obtain ⟨block, hblock, hcalls⟩ := hasked.exists_block hcall
    exact ⟨block, hblock, authorize_eq_ok.mp hadmitted block hblock, hcalls⟩

/-- Looks for a visitor, tells whom it found, keeps the visit and answers with all visits. -/
def visit : ProgramPack where
  program := ⟨"visit", "main", [
    ⟨"idb.get", [("key", .string "ada"), ("store", .string "visitors")]⟩,
    ⟨"event.emit", [("body_from", .string "last"), ("event", .string "found")]⟩,
    ⟨"idb.put", [("store", .string "visits"), ("value", .object [("id", .string "ada")])]⟩,
    ⟨"idb.query", [("store", .string "visits")]⟩,
    ⟨"event.reply", [("body_from", .string "last"), ("event", .string "visits")]⟩]⟩

def visitPolicy (allowStorage : Bool) : Policy where
  version := 1
  maxDepth := 64
  allowNetwork := false
  allowExec := false
  allowFsRead := false
  allowFsWrite := false
  allowStorage
  allowCrypto := false
  allowedRoutes := ["event.emit", "event.reply", "idb.get", "idb.put", "idb.query"]
  allowedPlugins := []
  fieldAllowlist := []
  paramAllowlist := []

/-- A storage that finds nothing, refuses every row and counts what it is asked. -/
def refusing : Handler Nat where
  get _ _ asked := (.ok none, asked + 1)
  put _ _ asked := (.error (.validation (.reported "full")), asked + 1)
  query _ _ asked := (.ok [], asked + 1)

theorem calls_accounted_visit :
    visit.authorize (visitPolicy true) = .ok () ∧
    (∃ calls, (visit.run refusing.recorded (visitPolicy true) (0, [])).state = (2, calls) ∧ calls.length = 2 ∧
      ∀ call ∈ calls, ∃ block ∈ visit.blocks, block.op ∈ (visitPolicy true).allowedRoutes ∧
        block.Calls call) ∧
    (visitPolicy false).allowStorage = false ∧
    (visit.run refusing.recorded (visitPolicy false) (0, [])).state = (0, []) := by
  have hadmitted : visit.authorize (visitPolicy true) = .ok () := rfl
  refine ⟨hadmitted, ?_, rfl, ?_⟩
  · obtain ⟨calls, hrun, -, -, hlisted⟩ := calls_accounted visit refusing (visitPolicy true) 0
    have hstate := congrArg Run.state hrun
    refine ⟨calls, hstate, ?_, hlisted hadmitted⟩
    exact congrArg (fun state => state.2.length) hstate.symm
  · obtain ⟨calls, hrun, -, hwithheld, -⟩ := calls_accounted visit refusing (visitPolicy false) 0
    obtain ⟨hcalls, hstate, -⟩ := hwithheld rfl
    rw [hrun, hcalls, hstate]

end ProgramPack

end

end StampedPrograms
