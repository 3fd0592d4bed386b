import StampedPrograms.Effect.Store
import StampedPrograms.Proofs.Program.Calls

/-!
What a successful run says. Its emissions are those of its emitting blocks, its reply is that of the last
replying block, and each record has the event its block names and either what the block holds or the result
of the latest call before it. Events have no part in the calls.
-/

namespace StampedPrograms

/-! ### The last result and the records -/

/-- The result of the latest of these calls, or what was there before the first. -/
inductive Latest (first : Json) : List HandlerCall → Json → Prop where
  | none : Latest first [] first
  | answered (calls : List HandlerCall) {call : HandlerCall} {last : Json} (answer : call.result = .ok last) :
      Latest first (calls ++ [call]) last

theorem Latest.cons {first last : Json} {call : HandlerCall} {calls : List HandlerCall}
    (hcall : call.result = .ok first) (h : Latest first calls last) (before : Json) :
    Latest before (call :: calls) last := by
  cases h with
  | none => exact .answered [] hcall
  | answered calls answer => exact .answered (call :: calls) answer

theorem Latest.unique {first last last' : Json} {calls : List HandlerCall} (h : Latest first calls last)
    (h' : Latest first calls last') : last = last' := by
  generalize hcalls : calls = other at h'
  cases h with
  | none =>
      cases h' with
      | none => rfl
      | answered => simp at hcalls
  | answered calls answer =>
      cases h' with
      | none => simp at hcalls
      | answered calls' answer' =>
          obtain ⟨-, hcall⟩ := List.append_inj' hcalls rfl
          cases hcall
          exact Except.ok.inj (answer.symm.trans answer')

/-- The result of the latest call that these blocks make, when a run that begins with them makes these calls.
Before any call it is null. -/
def LastResult (calls : List HandlerCall) (before : List Block) (last : Json) : Prop :=
  ∃ own, own <+: calls ∧ List.Forall₂ Block.Calls (before.filter Block.usesStorage) own ∧ Latest .null own last

/-- Blocks that make one call each account for a fixed number of calls. -/
theorem LastResult.unique {calls : List HandlerCall} {before : List Block} {last last' : Json}
    (h : LastResult calls before last) (h' : LastResult calls before last') : last = last' := by
  obtain ⟨own, hfirst, heach, hlatest⟩ := h
  obtain ⟨own', hfirst', heach', hlatest'⟩ := h'
  have hlength : own.length = own'.length := heach.length_eq.symm.trans heach'.length_eq
  have hle : own <+: own' := List.prefix_of_prefix_length_le hfirst hfirst' (Nat.le_of_eq hlength)
  rw [hle.eq_of_length hlength] at hlatest
  exact hlatest.unique hlatest'

namespace Block

def isEmission (block : Block) : Bool :=
  block.op == "event.emit"

/-- The record that a block stands for after this last result. -/
structure Says (block : Block) (last : Json) (record : EventRecord) : Prop where
  names : block.arg? "event" = some (.string record.event)
  named : record.event ≠ ""
  version : record.version = 1
  latest : block.arg? "body_from" = some (.string "last") → record.input = last
  given : block.arg? "body_from" ≠ some (.string "last") →
    record.input = (block.arg? "body").getD (.object [])

theorem Says.unique {block : Block} {last : Json} {record record' : EventRecord}
    (h : block.Says last record) (h' : block.Says last record') : record = record' := by
  have hnames := h.names.symm.trans h'.names
  have hevent : record.event = record'.event := Json.string.inj (Option.some.inj hnames)
  have hversion : record.version = record'.version := h.version.trans h'.version.symm
  have hinput : record.input = record'.input := by
    by_cases hlast : block.arg? "body_from" = some (.string "last")
    · exact (h.latest hlast).trans (h'.latest hlast).symm
    · exact (h.given hlast).trans (h'.given hlast).symm
  cases record
  cases record'
  exact EventRecord.mk.injEq .. ▸ ⟨hevent, hversion, hinput⟩

theorem says_event {block : Block} {event : String} (h : block.eventName = .ok event) (p : Progress) :
    block.Says p.last { event, input := p.input block.body } := by
  obtain ⟨hnames, hnamed⟩ := eventName_eq_ok h
  refine ⟨hnames, hnamed, rfl, fun hlast => ?_, fun hother => ?_⟩
  · show p.input block.body = p.last
    rw [body, hlast]
    rfl
  · show p.input block.body = (block.arg? "body").getD (.object [])
    rw [body]
    split
    · next hlast => exact absurd hlast hother
    · rfl

/-! ### What one block adds -/

variable {block : Block} {p q : Progress} {calls : List HandlerCall}

theorem Succeeds.op_mem (h : block.Succeeds p q calls) :
    block.op ∈ storageOps ++ ["event.reply", "event.emit"] := by
  cases h with
  | answered calls answer => exact List.mem_append_left _ calls.op_mem
  | replied op names => rw [op]; decide
  | emitted op names => rw [op]; decide

theorem Succeeds.latest (h : block.Succeeds p q calls) {rest : List HandlerCall} {last : Json}
    (hrest : Latest q.last rest last) : Latest p.last (calls ++ rest) last := by
  cases h with
  | answered calls answer => exact hrest.cons answer _
  | replied op names => exact hrest
  | emitted op names => exact hrest

/-- A block emits its record or leaves the emissions as they were. -/
theorem Succeeds.emits (h : block.Succeeds p q calls) :
    (block.op = "event.emit" ∧ ∃ record, block.Says p.last record ∧
      q.outcome.emits = p.outcome.emits ++ [record]) ∨
    (block.op ≠ "event.emit" ∧ q.outcome.emits = p.outcome.emits) := by
  cases h with
  | answered calls answer =>
      refine .inr ⟨fun hop => ?_, rfl⟩
      exact absurd (hop ▸ calls.op_mem) (by decide)
  | replied op names => exact .inr ⟨by rw [op]; decide, rfl⟩
  | emitted op names => exact .inl ⟨op, _, says_event names p, rfl⟩

/-- A block replies with its record or leaves the reply as it was. -/
theorem Succeeds.reply (h : block.Succeeds p q calls) :
    (block.op = "event.reply" ∧ ∃ record, block.Says p.last record ∧ q.outcome.reply = some record) ∨
    (block.op ≠ "event.reply" ∧ q.outcome.reply = p.outcome.reply) := by
  cases h with
  | answered calls answer =>
      refine .inr ⟨fun hop => ?_, rfl⟩
      exact absurd (hop ▸ calls.op_mem) (by decide)
  | replied op names => exact .inl ⟨op, _, says_event names p, rfl⟩
  | emitted op names => exact .inr ⟨by rw [op]; decide, rfl⟩

end Block

/-- The record that a block stands for after these blocks of a run that makes these calls. -/
def RecordOf (calls : List HandlerCall) (before : List Block) (block : Block) (record : EventRecord) : Prop :=
  ∃ last, LastResult calls before last ∧ block.Says last record

theorem RecordOf.unique {calls : List HandlerCall} {before : List Block} {block : Block}
    {record record' : EventRecord} (h : RecordOf calls before block record)
    (h' : RecordOf calls before block record') : record = record' := by
  obtain ⟨last, hlast, hsays⟩ := h
  obtain ⟨last', hlast', hsays'⟩ := h'
  rw [hlast.unique hlast'] at hsays
  exact hsays.unique hsays'

/-! ### What a stretch of blocks adds -/

namespace Performs

variable {p q : Progress} {blocks before after : List Block} {block : Block} {calls : List HandlerCall}

theorem split (h : Performs p (before ++ after) calls q) :
    ∃ own rest p', calls = own ++ rest ∧ Performs p before own p' ∧ Performs p' after rest q := by
  induction before generalizing p calls with
  | nil => exact ⟨[], calls, p, rfl, .nil p, h⟩
  | cons block before ih =>
      cases h with
      | @cons _ _ _ _ _ first calls succeeds remaining =>
          obtain ⟨own, rest, p', rfl, hbefore, hafter⟩ := ih remaining
          exact ⟨first ++ own, rest, p', (List.append_assoc ..).symm, .cons succeeds hbefore, hafter⟩

theorem op_mem (h : Performs p blocks calls q) :
    ∀ block ∈ blocks, block.op ∈ storageOps ++ ["event.reply", "event.emit"] := by
  induction h with
  | nil => simp
  | cons first _ ih => exact List.forall_mem_cons.mpr ⟨first.op_mem, ih⟩

theorem latest (h : Performs p blocks calls q) : Latest p.last calls q.last := by
  induction h with
  | nil => exact .none
  | cons first _ ih => exact first.latest ih

/-- Emissions are only ever added, one for each emitting block. -/
theorem emits (h : Performs p blocks calls q) :
    ∃ more, q.outcome.emits = p.outcome.emits ++ more ∧ more.length = blocks.countP Block.isEmission := by
  induction h with
  | nil => exact ⟨[], (List.append_nil _).symm, rfl⟩
  | cons first _ ih =>
      obtain ⟨more, hmore, hlength⟩ := ih
      rcases first.emits with ⟨hop, record, -, hrecord⟩ | ⟨hop, hsame⟩
      · refine ⟨record :: more, ?_, ?_⟩
        · rw [hmore, hrecord, List.append_assoc, List.singleton_append]
        · rw [List.countP_cons_of_pos (by simp [Block.isEmission, hop]), List.length_cons, hlength]
      · refine ⟨more, by rw [hmore, hsame], ?_⟩
        rw [List.countP_cons_of_neg (by simp [Block.isEmission, hop]), hlength]

theorem reply_of_no_reply (h : Performs p blocks calls q)
    (hops : ∀ block ∈ blocks, block.op ≠ "event.reply") : q.outcome.reply = p.outcome.reply := by
  induction h with
  | nil => rfl
  | cons first _ ih =>
      obtain ⟨hop, hrest⟩ := List.forall_mem_cons.mp hops
      rcases first.reply with ⟨hreply, -⟩ | ⟨-, hsame⟩
      · exact absurd hreply hop
      · rw [ih hrest, hsame]

/-- The run in front of one of its blocks, at it, and behind it. -/
theorem around (h : Performs {} (before ++ block :: after) calls q) :
    ∃ p p' own asked rest, LastResult calls before p.last ∧ Performs {} before own p ∧
      block.Succeeds p p' asked ∧ Performs p' after rest q := by
  obtain ⟨own, remaining, p, rfl, hbefore, hremaining⟩ := h.split
  cases hremaining with
  | @cons _ p' _ _ _ asked rest succeeds hafter =>
      have hlast : LastResult (own ++ (asked ++ rest)) before p.last :=
        ⟨own, List.prefix_append .., hbefore.each, hbefore.latest⟩
      exact ⟨p, p', own, asked, rest, hlast, hbefore, succeeds, hafter⟩

theorem emission (h : Performs {} (before ++ block :: after) calls q) (hop : block.op = "event.emit") :
    ∃ record, RecordOf calls before block record ∧
      q.outcome.emits[before.countP Block.isEmission]? = some record := by
  obtain ⟨p, p', own, asked, rest, hlast, hbefore, succeeds, hafter⟩ := h.around
  obtain ⟨earlier, hearlier, hlength⟩ := hbefore.emits
  obtain ⟨later, hlater, -⟩ := hafter.emits
  rcases succeeds.emits with ⟨-, record, hsays, hrecord⟩ | ⟨hother, -⟩
  · refine ⟨record, ⟨p.last, hlast, hsays⟩, ?_⟩
    -- The blocks in front emit as many records as they are emitting blocks, and those behind only append.
    have hemits : q.outcome.emits = earlier ++ record :: later := by
      rw [hlater, hrecord, hearlier]
      simp
    rw [hemits, ← hlength]
    simp
  · exact absurd hop hother

theorem reply (h : Performs {} (before ++ block :: after) calls q) (hop : block.op = "event.reply")
    (hlatest : ∀ later ∈ after, later.op ≠ "event.reply") :
    ∃ record, RecordOf calls before block record ∧ q.outcome.reply = some record := by
  obtain ⟨p, p', own, asked, rest, hlast, -, succeeds, hafter⟩ := h.around
  rcases succeeds.reply with ⟨-, record, hsays, hrecord⟩ | ⟨hother, -⟩
  · exact ⟨record, ⟨p.last, hlast, hsays⟩, (hafter.reply_of_no_reply hlatest).trans hrecord⟩
  · exact absurd hop hother

end Performs

/-! ### What the blocks and the calls tell -/

/-- What blocks that all succeed say, told by the blocks and their calls. -/
structure Tells (blocks : List Block) (calls : List HandlerCall) (outcome : Outcome) : Prop where
  ops : ∀ block ∈ blocks, block.op ∈ storageOps ++ ["event.reply", "event.emit"]
  asked : List.Forall₂ Block.Calls (blocks.filter Block.usesStorage) calls
  emissions : outcome.emits.length = blocks.countP Block.isEmission
  emission : ∀ before block after, blocks = before ++ block :: after → block.op = "event.emit" →
    ∃ record, RecordOf calls before block record ∧
      outcome.emits[before.countP Block.isEmission]? = some record
  silent : outcome.reply = none ↔ ∀ block ∈ blocks, block.op ≠ "event.reply"
  reply : ∀ before block after, blocks = before ++ block :: after → block.op = "event.reply" →
    (∀ later ∈ after, later.op ≠ "event.reply") →
    ∃ record, RecordOf calls before block record ∧ outcome.reply = some record

theorem exists_of_lt_countP {P : Block → Bool} {blocks : List Block} {i : Nat} (h : i < blocks.countP P) :
    ∃ before block after, blocks = before ++ block :: after ∧ P block = true ∧ before.countP P = i := by
  induction blocks generalizing i with
  | nil => cases h
  | cons block blocks ih =>
      cases hblock : P block with
      | false =>
          have hskipped : ¬ P block = true := by rw [hblock]; exact Bool.false_ne_true
          rw [List.countP_cons_of_neg hskipped] at h
          obtain ⟨before, found, after, rfl, hfound, rfl⟩ := ih h
          exact ⟨block :: before, found, after, rfl, hfound, List.countP_cons_of_neg hskipped⟩
      | true =>
          cases i with
          | zero => exact ⟨[], block, blocks, rfl, hblock, rfl⟩
          | succ i =>
              rw [List.countP_cons_of_pos hblock] at h
              obtain ⟨before, found, after, rfl, hfound, rfl⟩ := ih (Nat.lt_of_succ_lt_succ h)
              exact ⟨block :: before, found, after, rfl, hfound, List.countP_cons_of_pos hblock⟩

/-- Where there are blocks of a kind, one of them is the last. -/
theorem exists_latest {P : Block → Bool} {blocks : List Block} (h : ∃ block ∈ blocks, P block = true) :
    ∃ before block after, blocks = before ++ block :: after ∧ P block = true ∧
      ∀ later ∈ after, ¬ P later = true := by
  have hpos : 0 < blocks.countP P := List.countP_pos_iff.mpr h
  obtain ⟨before, block, after, rfl, hblock, hcount⟩ := exists_of_lt_countP (Nat.sub_one_lt_of_lt hpos)
  have hnone : after.countP P = 0 := by
    rw [List.countP_append, List.countP_cons_of_pos hblock] at hcount
    omega
  exact ⟨before, block, after, rfl, hblock, List.countP_eq_zero.mp hnone⟩

/-- The blocks and their calls fix everything that is said. -/
theorem Tells.unique {blocks : List Block} {calls : List HandlerCall} {said said' : Outcome}
    (h : Tells blocks calls said) (h' : Tells blocks calls said') : said = said' := by
  have hemits : said.emits = said'.emits := by
    refine List.ext_getElem? fun i => ?_
    by_cases hi : i < blocks.countP Block.isEmission
    · obtain ⟨before, block, after, hblocks, hemission, rfl⟩ := exists_of_lt_countP hi
      have hop : block.op = "event.emit" := beq_iff_eq.mp hemission
      obtain ⟨record, hof, hrecord⟩ := h.emission before block after hblocks hop
      obtain ⟨record', hof', hrecord'⟩ := h'.emission before block after hblocks hop
      rw [hrecord, hrecord', hof.unique hof']
    · rw [List.getElem?_eq_none, List.getElem?_eq_none]
      · rw [h'.emissions]
        exact Nat.not_lt.mp hi
      · rw [h.emissions]
        exact Nat.not_lt.mp hi
  have hreply : said.reply = said'.reply := by
    by_cases hsilent : ∀ block ∈ blocks, block.op ≠ "event.reply"
    · rw [h.silent.mpr hsilent, h'.silent.mpr hsilent]
    · have hreplies : ∃ block ∈ blocks, (block.op == "event.reply") = true := by simpa using hsilent
      obtain ⟨before, block, after, hblocks, hop, hlatest⟩ := exists_latest hreplies
      simp only [beq_iff_eq] at hop hlatest
      obtain ⟨record, hof, hrecord⟩ := h.reply before block after hblocks hop hlatest
      obtain ⟨record', hof', hrecord'⟩ := h'.reply before block after hblocks hop hlatest
      rw [hrecord, hrecord', hof.unique hof']
  cases said
  cases said'
  exact congrArg₂ Outcome.mk hreply hemits

section

variable {σ : Type} {handler : Handler σ} {policy : Policy} {s : σ}

end

end StampedPrograms
