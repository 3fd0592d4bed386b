import StampedPrograms.Program.Basic
import StampedPrograms.Proofs.Error
import StampedPrograms.Proofs.Json.Alike

/-!
What normalizing gives: packs of the one format whose blocks all name an operation and hold documents
with their members in order. Every such pack is given, for one by its own document.
-/

namespace StampedPrograms

namespace Block

theorem member?_op (block : Block) : (toJson block).member? "op" = some (.string block.op) :=
  Entries.lookup_ofList ..

theorem member?_args (block : Block) : (toJson block).member? "args" = some (.object block.args) :=
  Entries.lookup_ofList ..

/-- A block that names an operation is what its document describes. -/
theorem normalize_toJson (index : Nat) {block : Block} (hop : block.op ≠ "") :
    normalize index (toJson block) = .ok block := by
  have hname : ¬ block.op.isEmpty = true := fun h => hop (String.isEmpty_iff.mp h)
  rw [normalize, member?_op, member?_args]
  dsimp only
  rw [if_neg hname]
  rfl

/-- What a document must hold to describe a block. -/
theorem members_of_normalize {index : Nat} {doc : Json} {block : Block}
    (h : normalize index doc = .ok block) :
    block.op ≠ "" ∧ doc.member? "op" = some (.string block.op) ∧
      doc.member? "args" = some (.object block.args) := by
  rw [normalize] at h
  split at h
  · cases h
  dsimp only at h
  split at h
  · split at h
    · cases h
    · next op hop hname =>
        rw [pure_bind] at h
        split at h
        · next args hargs =>
            cases h
            exact ⟨fun hempty => hname (String.isEmpty_iff.mpr hempty), hop, hargs⟩
        · cases h
  · cases h

theorem normalizeAll_toJson (index : Nat) {blocks : List Block} (hops : ∀ block ∈ blocks, block.op ≠ "") :
    normalizeAll index (blocks.map toJson) = .ok blocks := by
  induction blocks generalizing index with
  | nil => rfl
  | cons block blocks ih =>
      obtain ⟨hop, hrest⟩ := List.forall_mem_cons.mp hops
      rw [List.map_cons, normalizeAll, normalize_toJson index hop, ok_bind, ih (index + 1) hrest]
      rfl

/-- Every block of a pack comes from one of its documents. -/
theorem exists_of_mem_normalizeAll {docs : List Json} {index : Nat} {blocks : List Block}
    (h : normalizeAll index docs = .ok blocks) {block : Block} (hblock : block ∈ blocks) :
    ∃ doc ∈ docs, ∃ place, normalize place doc = .ok block := by
  induction docs generalizing index blocks with
  | nil =>
      cases h
      cases hblock
  | cons doc docs ih =>
      obtain ⟨first, hfirst, h⟩ := bind_eq_ok.mp h
      obtain ⟨rest, hrest, h⟩ := bind_eq_ok.mp h
      cases h
      rcases List.mem_cons.mp hblock with rfl | hblock
      · exact ⟨doc, List.mem_cons_self .., index, hfirst⟩
      · obtain ⟨other, hother, hplace⟩ := ih hrest hblock
        exact ⟨other, List.mem_cons_of_mem _ hother, hplace⟩

end Block

namespace ProgramPack

/-- The arguments of all blocks are documents with their members in order. -/
def Ordered (pack : ProgramPack) : Prop :=
  ∀ block ∈ pack.blocks, (Json.object block.args).Ordered

theorem member?_format (pack : ProgramPack) :
    (toJson pack).member? "format" = some (.string pack.format) :=
  Entries.lookup_ofList ..

theorem member?_program (pack : ProgramPack) :
    (toJson pack).member? "program" = some (toJson pack.program) :=
  Entries.lookup_ofList ..

theorem member?_name (pack : ProgramPack) :
    (toJson pack.program).member? "name" = some (.string pack.program.name) :=
  Entries.lookup_ofList ..

theorem member?_entry (pack : ProgramPack) :
    (toJson pack.program).member? "entry" = some (.string pack.program.entry) :=
  Entries.lookup_ofList ..

theorem member?_blocks (pack : ProgramPack) :
    (toJson pack.program).member? "blocks" = some (toJson pack.blocks) :=
  Entries.lookup_ofList ..

theorem ordered_toJson {pack : ProgramPack} (h : pack.Ordered) : (toJson pack).Ordered := by
  have hblock : ∀ block ∈ pack.blocks, (toJson block).Ordered := by
    intro block hblock
    refine .ofPairs fun pair hpair => ?_
    simp only [List.mem_cons, List.not_mem_nil, or_false] at hpair
    rcases hpair with rfl | rfl
    · exact .string _
    · exact h block hblock
  have hblocks : (toJson pack.blocks).Ordered := by
    refine .array fun item hitem => ?_
    obtain ⟨block, hmem, rfl⟩ := List.mem_map.mp hitem
    exact hblock block hmem
  have hprogram : (toJson pack.program).Ordered := by
    refine .ofPairs fun pair hpair => ?_
    simp only [List.mem_cons, List.not_mem_nil, or_false] at hpair
    rcases hpair with rfl | rfl | rfl
    · exact .string _
    · exact .string _
    · exact hblocks
  refine .ofPairs fun pair hpair => ?_
  simp only [List.mem_cons, List.not_mem_nil, or_false] at hpair
  rcases hpair with rfl | rfl
  · exact .string _
  · exact hprogram

/-- A pack of the one format with named operations is what its own document describes. -/
theorem normalize_toJson {pack : ProgramPack} (hformat : pack.format = packFormat)
    (hops : ∀ block ∈ pack.blocks, block.op ≠ "") : normalize (toJson pack) = .ok pack := by
  have hprogram : toJson pack.program = .object (Entries.ofList [("name", .string pack.program.name),
    ("entry", .string pack.program.entry), ("blocks", toJson pack.blocks)]) := rfl
  have hname : readName (toJson pack.program) "name" = .ok pack.program.name := by
    rw [readName, member?_name]
  have hentry : readName (toJson pack.program) "entry" = .ok pack.program.entry := by
    rw [readName, member?_entry]
  have hmatches : ¬ pack.format ≠ packFormat := fun h => h hformat
  rw [normalize, member?_format, member?_program, hprogram]
  dsimp only
  rw [if_neg hmatches, pure_bind, ← hprogram, hname, ok_bind, hentry, ok_bind, member?_blocks]
  have hblocks : toJson pack.blocks = .array (pack.blocks.map toJson) := rfl
  rw [hblocks]
  dsimp only
  rw [pure_bind, Block.normalizeAll_toJson 0 hops, ok_bind]
  obtain ⟨format, program⟩ := pack
  cases hformat
  rfl

/-- What normalizing a document gives. -/
def Normal (pack : ProgramPack) : Prop :=
  ∃ doc : Json, doc.Ordered ∧ normalize doc = .ok pack

theorem normal_iff {pack : ProgramPack} :
    pack.Normal ↔ pack.format = packFormat ∧ (∀ block ∈ pack.blocks, block.op ≠ "") ∧ pack.Ordered := by
  constructor
  · rintro ⟨doc, hdoc, h⟩
    rw [normalize] at h
    dsimp only at h
    split at h
    · split at h
      · cases h
      · split at h
        · next found hfound =>
            rw [pure_bind] at h
            obtain ⟨name, _, h⟩ := bind_eq_ok.mp h
            obtain ⟨entry, _, h⟩ := bind_eq_ok.mp h
            split at h
            · next docs hdocs =>
                rw [pure_bind] at h
                obtain ⟨blocks, hblocks, h⟩ := bind_eq_ok.mp h
                cases h
                cases (hdoc.member? hfound).member? hdocs with
                | array ordered =>
                    refine ⟨rfl, fun block hblock => ?_, fun block hblock => ?_⟩
                    · obtain ⟨_, _, _, hread⟩ := Block.exists_of_mem_normalizeAll hblocks hblock
                      exact (Block.members_of_normalize hread).1
                    · obtain ⟨doc, hdoc, _, hread⟩ := Block.exists_of_mem_normalizeAll hblocks hblock
                      exact (ordered doc hdoc).member? (Block.members_of_normalize hread).2.2
            · cases h
        · cases h
    · cases h
  · rintro ⟨hformat, hops, hordered⟩
    exact ⟨toJson pack, ordered_toJson hordered, normalize_toJson hformat hops⟩

theorem Normal.ordered {pack : ProgramPack} (h : pack.Normal) : pack.Ordered :=
  (normal_iff.mp h).2.2

end ProgramPack

end StampedPrograms
