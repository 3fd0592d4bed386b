import StampedPrograms.Proofs.Program.Spelling

/-!
How far the text of a program fixes what it does. Admission is fixed. A run is fixed but for one thing:
looking up a key compares documents and not their values. So the programs of one text behave in one way
exactly if none of them runs otherwise than it would on the storage that compares ids by value.
-/

namespace StampedPrograms

open Store (byValue)

/-- What a run tells its caller: the code of its error, and the canonical values of what it said and
wrote. -/
structure Report where
  failure : Option String
  reply : Option Value
  emits : List Value
  writes : List Value
deriving DecidableEq

def Run.report (r : Run Store) : Report where
  failure := r.failure.map Error.code
  reply := r.outcome.reply.map canonicalValue
  emits := r.outcome.emits.map canonicalValue
  writes := r.state.writes.map canonicalValue

theorem canonicalValue_event_eq (a b : EventRecord) (h : a.image = b.image) :
    canonicalValue a = canonicalValue b := by
  obtain ⟨hevent, hrest⟩ := Prod.mk.inj h
  obtain ⟨hversion, hinput⟩ := Prod.mk.inj hrest
  have halike : (toJson a).Alike (toJson b) := by
    apply Json.alike_ofPairs
    rw [hevent, hversion]
    exact congrArg (fun v => [("event", Value.string b.event), ("v", Value.inOrder (.ofUInt32 b.version)),
      ("input", v)]) hinput
  exact halike.ofJson_eq

theorem canonicalValue_write_eq (a b : Write) (h : a.image = b.image) :
    canonicalValue a = canonicalValue b := by
  obtain ⟨hop, hrest⟩ := Prod.mk.inj h
  obtain ⟨hstore, hvalue⟩ := Prod.mk.inj hrest
  have halike : (toJson a).Alike (toJson b) := by
    apply Json.alike_ofPairs
    rw [hop, hstore]
    exact congrArg (fun v => [("op", Value.string b.op), ("store", .string b.store), ("value", v)]) hvalue
  exact halike.ofJson_eq

theorem canonicalValue_reply_eq {x y : Option EventRecord}
    (h : x.map EventRecord.image = y.map EventRecord.image) :
    x.map canonicalValue = y.map canonicalValue := by
  cases x with
  | none =>
      cases y with
      | none => rfl
      | some b => cases h
  | some a =>
      cases y with
      | none => cases h
      | some b => exact congrArg some (canonicalValue_event_eq a b (Option.some.inj h))

/-- Similar runs report the same. -/
theorem Run.Similar.report_eq {r r' : Run Store} (h : r.Similar Store.Alike r') :
    r.report = r'.report := by
  have hemits : r.outcome.emits.map canonicalValue = r'.outcome.emits.map canonicalValue :=
    map_eq_of_map_eq canonicalValue_event_eq h.outcome.emits
  have hwrites : r.state.writes.map canonicalValue = r'.state.writes.map canonicalValue :=
    map_eq_of_map_eq canonicalValue_write_eq h.state.writes
  rw [Run.report, Run.report, h.failure, canonicalValue_reply_eq h.outcome.reply, hemits, hwrites]

namespace ProgramPack

variable {P Q : ProgramPack} {s : Store}

/-- Where ids are compared by their values, the text fixes the run. -/
theorem report_byValue_eq (hP : P.Ordered) (hQ : Q.Ordered) (htext : Q.text = P.text) (policy : Policy)
    (s : Store) : (Q.run byValue policy s).report = (P.run byValue policy s).report :=
  (run_similar Store.byValue_respects policy hQ hP htext ⟨rfl, rfl⟩).report_eq

/-- Programs that look nothing up do what their text says. -/
theorem report_eq_of_no_lookup (hP : P.Ordered) (hQ : Q.Ordered) (htext : Q.text = P.text)
    (hops : ∀ block ∈ P.blocks, block.op ≠ "idb.get") (policy : Policy) (s : Store) :
    (Q.run Store.handler policy s).report = (P.run Store.handler policy s).report := by
  have hsame := ops_eq_of_images (images_of_text_eq hQ hP htext)
  have hopsQ : ∀ block ∈ Q.blocks, block.op ≠ "idb.get" := by
    intro block hblock
    have hmem : block.op ∈ P.blocks.map Block.op := hsame ▸ List.mem_map_of_mem hblock
    obtain ⟨other, hother, hop⟩ := List.mem_map.mp hmem
    exact hop ▸ hops other hother
  have hrunP : P.run Store.handler policy s = P.run byValue policy s := runFrom_byValue policy {} s hops
  have hrunQ : Q.run Store.handler policy s = Q.run byValue policy s := runFrom_byValue policy {} s hopsQ
  rw [hrunP, hrunQ, report_byValue_eq hP hQ htext]

/-- What the text of a normal program fixes: the verdict of admission, the run on the storage that
compares ids by their values, the run of a program that looks nothing up, and any other run exactly if no
program with the text runs otherwise than it does where ids are compared by their values. -/
theorem behaviour_fixed_iff (hP : P.Normal) (policy : Policy) {seed : Json} (hseed : seed.Ordered)
    (hs : Store.ofSeed seed = .ok s) :
    (∀ Q : ProgramPack, Q.Normal → Q.text = P.text → Q.authorize policy = P.authorize policy ∧
      (Q.run byValue policy s).report = (P.run byValue policy s).report ∧
      ((∀ block ∈ P.blocks, block.op ≠ "idb.get") →
        (Q.run Store.handler policy s).report = (P.run Store.handler policy s).report)) ∧
    ((∀ Q : ProgramPack, Q.Normal → Q.text = P.text →
        (Q.run Store.handler policy s).report = (P.run Store.handler policy s).report) ↔
      ∀ Q : ProgramPack, Q.Normal → Q.text = P.text →
        (Q.run Store.handler policy s).report = (Q.run byValue policy s).report) := by
  have hstore := Store.ordered_ofSeed hseed hs
  have hbyValue (Q : ProgramPack) (hQ : Q.Normal) (htext : Q.text = P.text) :
      (Q.run byValue policy s).report = (P.run byValue policy s).report :=
    report_byValue_eq hP.ordered hQ.ordered htext policy s
  refine ⟨fun Q hQ htext => ⟨?_, hbyValue Q hQ htext, fun hops => ?_⟩, ?_, ?_⟩
  · exact authorize_eq_of_images (images_of_text_eq hQ.ordered hP.ordered htext) policy
  · exact report_eq_of_no_lookup hP.ordered hQ.ordered htext hops policy s
  · -- the program spelled for the storage is one of those with the text
    intro hfixed Q hQ htext
    have hspelled := hfixed _ (hP.spelled policy hstore) (text_spelled hP.ordered policy hstore)
    rw [run_spelled] at hspelled
    calc (Q.run Store.handler policy s).report
        = (P.run Store.handler policy s).report := hfixed Q hQ htext
      _ = (P.run byValue policy s).report := hspelled.symm
      _ = (Q.run byValue policy s).report := (hbyValue Q hQ htext).symm
  · intro hvalue Q hQ htext
    calc (Q.run Store.handler policy s).report
        = (Q.run byValue policy s).report := hvalue Q hQ htext
      _ = (P.run byValue policy s).report := hbyValue Q hQ htext
      _ = (P.run Store.handler policy s).report := (hvalue P hP rfl).symm

/-- The program that answers with the user under a key. -/
def answerUser (key : Json) : ProgramPack where
  program := ⟨"answer", "main", [
    ⟨"idb.get", [("key", key), ("store", .string "users")]⟩,
    ⟨"event.reply", [("body_from", .string "last"), ("event", .string "answer")]⟩]⟩

theorem normal_answerUser {key : Json} (hkey : key.Ordered) : (answerUser key).Normal := by
  have hget : "key" < "store" := by decide
  have hreply : "body_from" < "event" := by decide
  refine normal_iff.mpr ⟨rfl, ?_, List.forall_mem_cons.mpr ⟨?_, List.forall_mem_singleton.mpr ?_⟩⟩
  · have hop : "idb.get" ≠ "" := by decide
    exact List.forall_mem_cons.mpr ⟨hop, List.forall_mem_singleton.mpr (by decide)⟩
  · refine .object (List.pairwise_pair.mpr hget) ?_
    exact List.forall_mem_cons.mpr ⟨hkey, List.forall_mem_singleton.mpr (.string _)⟩
  · refine .object (List.pairwise_pair.mpr hreply) ?_
    exact List.forall_mem_cons.mpr ⟨.string _, List.forall_mem_singleton.mpr (.string _)⟩

/-- The number 1 as an integer. -/
def oneInteger : Json :=
  .number (.int 1 (by decide))

/-- The number 1 as a double. -/
def oneDouble : Json :=
  .number (.float ⟨false, 0x3ff0000000000000, by decide⟩ (by decide))

/-- Some users, one of whom has the integer 1 as id. -/
def someUsers : Json :=
  .object [("users", .array [.object [("id", oneInteger)]])]

theorem ordered_someUsers : someUsers.Ordered := by
  refine .object (List.pairwise_singleton ..) (List.forall_mem_singleton.mpr ?_)
  refine .array (List.forall_mem_singleton.mpr ?_)
  exact .object (List.pairwise_singleton ..) (List.forall_mem_singleton.mpr (.number _))

/-- A policy that allows looking up and replying. -/
def lookupPolicy : Policy where
  version := 1
  maxDepth := 64
  allowNetwork := false
  allowExec := false
  allowFsRead := false
  allowFsWrite := false
  allowStorage := true
  allowCrypto := false
  allowedRoutes := ["event.reply", "idb.get"]
  allowedPlugins := []
  fieldAllowlist := []
  paramAllowlist := []

/-- The key `1.0` misses the user with the id `1`, so the text does not fix the answer. -/
theorem behaviour_fixed_iff_answerUser :
    (answerUser oneDouble).Normal ∧ someUsers.Ordered ∧
      ∃ s, Store.ofSeed someUsers = .ok s ∧
        ¬ ∀ Q : ProgramPack, Q.Normal → Q.text = (answerUser oneDouble).text →
          (Q.run Store.handler lookupPolicy s).report =
            ((answerUser oneDouble).run Store.handler lookupPolicy s).report := by
  have hP : (answerUser oneDouble).Normal := normal_answerUser (.number _)
  refine ⟨hP, ordered_someUsers, ⟨[("users", [[("id", oneInteger)]])], []⟩, rfl, ?_⟩
  intro hfixed
  have hvalue := (behaviour_fixed_iff hP lookupPolicy ordered_someUsers rfl).2.mp hfixed _ hP rfl
  exact absurd hvalue (by decide +kernel)

end ProgramPack

end StampedPrograms
