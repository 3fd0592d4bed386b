import StampedPrograms.Program.Run
import StampedPrograms.Proofs.Effect.Handler
import StampedPrograms.Proofs.Program.Identity

/-!
Runs of two packs with one text. Where the handler answers alike calls alike and stays in alike states,
every block does alike things in both runs, so both end in the same way and say alike things.
-/

namespace StampedPrograms

def EventRecord.image (record : EventRecord) : String × UInt32 × Value :=
  (record.event, record.version, Value.inOrder record.input)

structure Outcome.Alike (a b : Outcome) : Prop where
  reply : a.reply.map EventRecord.image = b.reply.map EventRecord.image
  emits : a.emits.map EventRecord.image = b.emits.map EventRecord.image

structure Progress.Alike (p q : Progress) : Prop where
  last : p.last.Alike q.last
  outcome : p.outcome.Alike q.outcome

section

variable {σ : Type} {handler : Handler σ} {R : σ → σ → Prop}

namespace Progress

variable {p q : Progress}

theorem Alike.input (h : p.Alike q) {a b : Body} (hbody : a.Alike b) : (p.input a).Alike (q.input b) := by
  cases hbody with
  | last => exact h.last
  | given same => exact same

theorem Alike.withLast (h : p.Alike q) {a b : Json} (hlast : a.Alike b) :
    (p.withLast a).Alike (q.withLast b) :=
  ⟨hlast, h.outcome⟩

theorem Alike.event_image (h : p.Alike q) (event : String) {a b : Body} (hbody : a.Alike b) :
    EventRecord.image { event, input := p.input a } = EventRecord.image { event, input := q.input b } := by
  have hinput : Value.inOrder (p.input a) = Value.inOrder (q.input b) := h.input hbody
  rw [EventRecord.image, EventRecord.image, hinput]

theorem Alike.replied (h : p.Alike q) (event : String) {a b : Body} (hbody : a.Alike b) :
    (p.replied event a).Alike (q.replied event b) :=
  ⟨h.last, congrArg some (h.event_image event hbody), h.outcome.emits⟩

theorem Alike.emitted (h : p.Alike q) (event : String) {a b : Body} (hbody : a.Alike b) :
    (p.emitted event a).Alike (q.emitted event b) := by
  refine ⟨h.last, h.outcome.reply, ?_⟩
  rw [Progress.emitted, Progress.emitted, List.map_append, List.map_append, h.outcome.emits,
    List.map_singleton, List.map_singleton, h.event_image event hbody]

end Progress

theorem alike_rowsDocument {rows others : List Json}
    (h : rows.map Value.inOrder = others.map Value.inOrder) :
    (rowsDocument rows).Alike (rowsDocument others) := by
  have harray : Value.inOrder (.array rows) = Value.inOrder (.array others) := Json.alike_array.mpr h
  exact Json.alike_ofPairs (congrArg (fun v => [("rows", v)]) harray)

theorem getD_alike {x y : Option Json} (h : x.map Value.inOrder = y.map Value.inOrder) (default : Json) :
    (x.getD default).Alike (y.getD default) := by
  rcases Json.option_alike h with ⟨rfl, rfl⟩ | ⟨a, b, rfl, rfl, hab⟩
  · rfl
  · exact hab

/-- One step of two runs. -/
theorem Action.Alike.perform (hhandler : handler.Respects R) {p q : Progress} (hp : p.Alike q)
    {s t : σ} (hs : R s t) {a b : Action} (h : a.Alike b) :
    Answered Progress.Alike R (a.perform handler p s) (b.perform handler q t) := by
  cases h with
  | get store same =>
      obtain ⟨hanswer, hstate⟩ := hhandler.get store same hs
      exact ⟨hanswer.map fun x y hxy => hp.withLast (getD_alike hxy .null), hstate⟩
  | put store same =>
      obtain ⟨hanswer, hstate⟩ := hhandler.put store same hs
      exact ⟨hanswer.map fun x y hxy => hp.withLast hxy, hstate⟩
  | query store same =>
      obtain ⟨hanswer, hstate⟩ := hhandler.query store same hs
      exact ⟨hanswer.map fun x y hxy => hp.withLast (alike_rowsDocument hxy), hstate⟩
  | reply event same => exact ⟨.ok (hp.replied event same), hs⟩
  | emit event same => exact ⟨.ok (hp.emitted event same), hs⟩

theorem Block.Alike.perform (hhandler : handler.Respects R) (policy : Policy) {p q : Progress}
    (hp : p.Alike q) {s t : σ} (hs : R s t) {a b : Block} (h : a.Alike b) :
    Answered Progress.Alike R (a.perform handler policy p s) (b.perform handler policy q t) := by
  have haction := h.action policy
  rw [Block.perform, Block.perform]
  revert haction
  generalize a.action policy = x, b.action policy = y
  rintro (⟨same⟩ | e)
  · exact same.perform hhandler hp hs
  · exact ⟨.error e, hs⟩

/-- The same failure if any, alike outcomes, and related states. -/
structure Run.Similar (R : σ → σ → Prop) (r r' : Run σ) : Prop where
  failure : r.failure = r'.failure
  outcome : r.outcome.Alike r'.outcome
  state : R r.state r'.state

theorem runFrom_similar (hhandler : handler.Respects R) (policy : Policy) {blocks others : List Block}
    (hblocks : blocks.map Block.image = others.map Block.image) {p q : Progress} (hp : p.Alike q)
    {s t : σ} (hs : R s t) :
    (runFrom handler policy p s blocks).Similar R (runFrom handler policy q t others) := by
  induction blocks generalizing others p q s t with
  | nil =>
      cases others with
      | nil => exact ⟨rfl, hp.outcome, hs⟩
      | cons other others => cases hblocks
  | cons block blocks ih =>
      cases others with
      | nil => cases hblocks
      | cons other others =>
          obtain ⟨hfirst, hrest⟩ := List.cons.inj hblocks
          have hstep := (Block.alike_of_image_eq hfirst).perform hhandler policy hp hs
          rw [runFrom, runFrom]
          revert hstep
          generalize block.perform handler policy p s = x, other.perform handler policy q t = y
          obtain ⟨x, s'⟩ := x
          obtain ⟨y, t'⟩ := y
          rintro ⟨hanswer, hstate⟩
          cases hanswer with
          | ok same => exact ih hrest same hstate
          | error e => exact ⟨rfl, hp.outcome, hstate⟩

/-- Packs with one text run alike on every handler that cannot tell alike documents apart. -/
theorem ProgramPack.run_similar (hhandler : handler.Respects R) (policy : Policy) {P Q : ProgramPack}
    (hP : P.Ordered) (hQ : Q.Ordered) (htext : P.text = Q.text) {s t : σ} (hs : R s t) :
    (P.run handler policy s).Similar R (Q.run handler policy t) :=
  runFrom_similar hhandler policy (images_of_text_eq hP hQ htext) ⟨rfl, rfl, rfl⟩ hs

end

end StampedPrograms
