import Mathlib.Data.List.Forall2
import StampedPrograms.Proofs.Program.Normal

/-!
Which documents are packs. A document has to name the format and hold a program with a name, an entry and a list
of blocks, and every block has to name an operation and hold a record of arguments. If only blocks are wrong, the
error is about the first of them.
-/

namespace StampedPrograms

namespace Block

/-- An object that names the operation of the block and holds its arguments. -/
inductive Describes : Json → Block → Prop where
  | object {members : List (String × Json)} {op : String} {args : List (String × Json)}
      (hop : members.lookup "op" = some (.string op)) (named : op ≠ "")
      (hargs : members.lookup "args" = some (.object args)) : Describes (.object members) ⟨op, args⟩

/-- What is wrong with the document of a block, in the words of the error. The operation is looked at before the
arguments. -/
inductive Complaint : Json → String → Prop where
  | notObject {doc : Json} (other : ∀ members, doc ≠ .object members) : Complaint doc " must be an object"
  | op {members : List (String × Json)} (unnamed : ∀ op, members.lookup "op" = some (.string op) → op = "") :
      Complaint (.object members) ": op must be a non-empty string"
  | args {members : List (String × Json)} {op : String} (hop : members.lookup "op" = some (.string op))
      (named : op ≠ "") (other : ∀ args, members.lookup "args" ≠ some (.object args)) :
      Complaint (.object members) ": args must be an object"

/-- The error about a block names its place and what is wrong with it. -/
def Refuses (index : Nat) (complaint : String) (e : Error) : Prop :=
  e.code = "VALIDATION" ∧ e.message = "validation error: block " ++ index.repr ++ complaint

theorem refuses_of_message {defect : Defect} {index : Nat} {complaint : String}
    (h : defect.message = "block " ++ index.repr ++ complaint) : Refuses index complaint (.validation defect) := by
  have hwords : "validation error: " ++ "block " = "validation error: block " := by decide +kernel
  refine ⟨rfl, ?_⟩
  calc Error.message (.validation defect) = "validation error: " ++ ("block " ++ index.repr ++ complaint) :=
        congrArg ("validation error: " ++ ·) h
    _ = "validation error: " ++ "block " ++ index.repr ++ complaint := by simp only [String.append_assoc]
    _ = "validation error: block " ++ index.repr ++ complaint := by rw [hwords]

section

variable {doc : Json} {members : List (String × Json)} {index : Nat}

theorem normalize_notObject (h : ∀ members, doc ≠ .object members) :
    normalize index doc = .error (.validation (.blockNotObject index)) := by
  cases doc with
  | object members => exact absurd rfl (h members)
  | _ => rfl

theorem normalize_unnamed (h : ∀ op, members.lookup "op" = some (.string op) → op = "") :
    normalize index (.object members) = .error (.validation (.blockOp index)) := by
  have hobject : ¬ (Json.object members).asObject?.isNone = true := Bool.false_ne_true
  rw [normalize, if_neg hobject]
  dsimp only
  split
  · next op hop =>
      rw [h op hop]
      rfl
  · rfl

theorem normalize_named {op : String} (hop : members.lookup "op" = some (.string op)) (hnamed : op ≠ "") :
    normalize index (.object members) =
      match members.lookup "args" with
      | some (.object args) => .ok ⟨op, args⟩
      | _ => .error (.validation (.blockArgs index)) := by
  have hobject : ¬ (Json.object members).asObject?.isNone = true := Bool.false_ne_true
  have hname : ¬ op.isEmpty = true := fun h => hnamed (String.isEmpty_iff.mp h)
  have hmember : (Json.object members).member? "op" = some (.string op) := hop
  rw [normalize, if_neg hobject, hmember]
  dsimp only
  rw [if_neg hname]
  rfl

theorem normalize_of_describes {block : Block} (h : Describes doc block) : normalize index doc = .ok block := by
  cases h with
  | object hop named hargs => rw [normalize_named hop named, hargs]

/-- A complaint is what the document is refused with, wherever it stands. -/
theorem normalize_of_complaint {complaint : String} (h : Complaint doc complaint) (index : Nat) :
    ∃ e, normalize index doc = .error e ∧ Refuses index complaint e := by
  cases h with
  | notObject other => exact ⟨_, normalize_notObject other, refuses_of_message rfl⟩
  | op unnamed => exact ⟨_, normalize_unnamed unnamed, refuses_of_message rfl⟩
  | @args members op hop named other =>
      refine ⟨.validation (.blockArgs index), ?_, refuses_of_message rfl⟩
      rw [normalize_named hop named]
      split
      · next args hargs => exact absurd hargs (other args)
      · rfl

end

theorem describes_or_complaint (doc : Json) :
    (∃ block, Describes doc block) ∨ ∃ complaint, Complaint doc complaint := by
  cases doc with
  | object members =>
      by_cases hop : ∃ op, members.lookup "op" = some (.string op) ∧ op ≠ ""
      · obtain ⟨op, hop, hnamed⟩ := hop
        by_cases hargs : ∃ args, members.lookup "args" = some (.object args)
        · obtain ⟨args, hargs⟩ := hargs
          exact .inl ⟨⟨op, args⟩, .object hop hnamed hargs⟩
        · exact .inr ⟨_, .args hop hnamed (not_exists.mp hargs)⟩
      · exact .inr ⟨_, .op fun op hfound => by_contra fun hne => hop ⟨op, hfound, hne⟩⟩
  | _ => exact .inr ⟨_, .notObject (by rintro members ⟨⟩)⟩

theorem normalize_eq_ok {index : Nat} {doc : Json} {block : Block} :
    normalize index doc = .ok block ↔ Describes doc block := by
  refine ⟨fun h => ?_, normalize_of_describes⟩
  rcases describes_or_complaint doc with ⟨other, hother⟩ | ⟨complaint, hcomplaint⟩
  · rw [normalize_of_describes hother] at h
    cases h
    exact hother
  · obtain ⟨e, he, -⟩ := normalize_of_complaint hcomplaint index
    rw [he] at h
    cases h

/-! ### Lists of blocks -/

/-- Documents are blocks if they are so one by one, wherever the list starts. -/
theorem normalizeAll_eq_ok {index : Nat} {docs : List Json} {blocks : List Block} :
    normalizeAll index docs = .ok blocks ↔ List.Forall₂ Describes docs blocks := by
  induction docs generalizing index blocks with
  | nil =>
      rw [List.forall₂_nil_left_iff, normalizeAll]
      exact ⟨fun h => (Except.ok.inj h).symm, fun h => congrArg Except.ok h.symm⟩
  | cons doc docs ih =>
      rw [List.forall₂_cons_left_iff, normalizeAll, bind_eq_ok]
      constructor
      · rintro ⟨block, hblock, h⟩
        obtain ⟨rest, hrest, ⟨⟩⟩ := bind_eq_ok.mp h
        exact ⟨block, rest, normalize_eq_ok.mp hblock, ih.mp hrest, rfl⟩
      · rintro ⟨block, rest, hblock, hrest, rfl⟩
        exact ⟨block, normalize_eq_ok.mpr hblock, bind_eq_ok.mpr ⟨rest, ih.mpr hrest, rfl⟩⟩

theorem named_of_describes {docs : List Json} {blocks : List Block} (h : List.Forall₂ Describes docs blocks) :
    ∀ block ∈ blocks, block.op ≠ "" := by
  induction h with
  | nil => exact List.forall_mem_nil _
  | cons hfirst _ ih =>
      cases hfirst with
      | object _ named _ => exact List.forall_mem_cons.mpr ⟨named, ih⟩

/-- The first document that is no block is the one that is named, whatever comes after it. -/
theorem normalizeAll_refuses {before : List Json} {bad : Json} {complaint : String}
    (hbefore : ∀ doc ∈ before, ∃ block, Describes doc block) (hbad : Complaint bad complaint) (index : Nat)
    (after : List Json) :
    ∃ e, normalizeAll index (before ++ bad :: after) = .error e ∧ Refuses (index + before.length) complaint e := by
  induction before generalizing index with
  | nil =>
      obtain ⟨e, he, hrefuses⟩ := normalize_of_complaint hbad index
      refine ⟨e, ?_, hrefuses⟩
      rw [List.nil_append, normalizeAll, he]
      rfl
  | cons first before ih =>
      obtain ⟨⟨block, hblock⟩, hrest⟩ := List.forall_mem_cons.mp hbefore
      obtain ⟨e, he, hrefuses⟩ := ih hrest (index + 1)
      refine ⟨e, ?_, ?_⟩
      · rw [List.cons_append, normalizeAll, normalize_of_describes hblock, ok_bind, he]
        rfl
      · rwa [Nat.add_right_comm, Nat.add_assoc] at hrefuses

end Block

namespace ProgramPack

/-- What a pack says apart from its blocks, with the documents of these. -/
inductive Frames : Json → String → String → List Json → Prop where
  | object {members program : List (String × Json)} {name entry : String} {docs : List Json}
      (hformat : members.lookup "format" = some (.string "matrix.program.v1"))
      (hprogram : members.lookup "program" = some (.object program))
      (hname : program.lookup "name" = some (.string name))
      (hentry : program.lookup "entry" = some (.string entry))
      (hblocks : program.lookup "blocks" = some (.array docs)) : Frames (.object members) name entry docs

variable {doc : Json} {name entry : String} {docs : List Json}

theorem normalize_of_frames (h : Frames doc name entry docs) :
    normalize doc = (Block.normalizeAll 0 docs >>= fun blocks => pure { program := { name, entry, blocks } }) := by
  cases h with
  | @object members program _ _ _ hformat hprogram hname hentry hblocks =>
      have hformatMember : (Json.object members).member? "format" = some (.string packFormat) := hformat
      have hprogramMember : (Json.object members).member? "program" = some (.object program) := hprogram
      have hnameMember : readName (.object program) "name" = .ok name := by rw [readName, Json.member?, hname]
      have hentryMember : readName (.object program) "entry" = .ok entry := by rw [readName, Json.member?, hentry]
      have hblocksMember : (Json.object program).member? "blocks" = some (.array docs) := hblocks
      rw [normalize, hformatMember, hprogramMember]
      dsimp only
      rw [if_neg (not_not_intro rfl), pure_bind, hnameMember, ok_bind, hentryMember, ok_bind, hblocksMember]
      dsimp only
      rw [pure_bind]

theorem readName_cases (members : List (String × Json)) (field : String) :
    (∃ text, members.lookup field = some (.string text) ∧ readName (.object members) field = .ok text) ∨
      readName (.object members) field = .error (.validation (.packName field)) := by
  rw [readName, Json.member?]
  split
  · next text htext => exact .inl ⟨text, htext, rfl⟩
  · exact .inr rfl

/-- What lacks anything but blocks is refused before these are looked at. -/
theorem frames_or_refused (doc : Json) :
    (∃ name entry docs, Frames doc name entry docs) ∨ ∃ defect, normalize doc = .error (.validation defect) := by
  cases doc with
  | object members =>
      -- One split for each check, in the order in which they are made; what passes all of them has the five members.
      rw [normalize]
      dsimp only
      split
      · next format hformat =>
          split
          · exact .inr ⟨.packFormat, rfl⟩
          · next hsame =>
              cases not_not.mp hsame
              split
              · next program hprogram =>
                  rw [pure_bind]
                  rcases readName_cases program "name" with ⟨name, hname, hread⟩ | hread <;> rw [hread]
                  · rcases readName_cases program "entry" with ⟨entry, hentry, hread⟩ | hread <;> rw [ok_bind, hread]
                    · rw [ok_bind]
                      split
                      · next docs hdocs => exact .inl ⟨name, entry, docs, .object hformat hprogram hname hentry hdocs⟩
                      · exact .inr ⟨.packBlocks, rfl⟩
                    · exact .inr ⟨.packName "entry", rfl⟩
                  · exact .inr ⟨.packName "name", rfl⟩
              · exact .inr ⟨.packProgram, rfl⟩
      · exact .inr ⟨.packFormat, rfl⟩
  | _ => exact .inr ⟨.packFormat, rfl⟩

/-- What brings a pack: everything around the blocks, and the blocks one by one. -/
theorem normalize_eq_ok {pack : ProgramPack} :
    normalize doc = .ok pack ↔ pack.format = packFormat ∧
      ∃ docs, Frames doc pack.program.name pack.program.entry docs ∧
        List.Forall₂ Block.Describes docs pack.blocks := by
  constructor
  · intro h
    rcases frames_or_refused doc with ⟨name, entry, docs, hframes⟩ | ⟨defect, hdefect⟩
    · rw [normalize_of_frames hframes] at h
      obtain ⟨blocks, hblocks, ⟨⟩⟩ := bind_eq_ok.mp h
      exact ⟨rfl, docs, hframes, Block.normalizeAll_eq_ok.mp hblocks⟩
    · rw [hdefect] at h
      cases h
  · rintro ⟨hformat, docs, hframes, hblocks⟩
    obtain ⟨format, name, entry, blocks⟩ := pack
    cases hformat
    rw [normalize_of_frames hframes, Block.normalizeAll_eq_ok.mpr hblocks]
    rfl

/-- Among documents that are not all blocks there is a first one that is none. -/
theorem exists_first_complaint {docs : List Json} (h : ¬ ∀ doc ∈ docs, ∃ block, Block.Describes doc block) :
    ∃ before bad after complaint, docs = before ++ bad :: after ∧
      (∀ doc ∈ before, ∃ block, Block.Describes doc block) ∧ Block.Complaint bad complaint := by
  induction docs with
  | nil => exact absurd (by simp) h
  | cons first docs ih =>
      rcases Block.describes_or_complaint first with hfirst | ⟨complaint, hcomplaint⟩
      · have hrest : ¬ ∀ doc ∈ docs, ∃ block, Block.Describes doc block :=
          fun hall => h (List.forall_mem_cons.mpr ⟨hfirst, hall⟩)
        obtain ⟨before, bad, after, complaint, rfl, hbefore, hbad⟩ := ih hrest
        exact ⟨first :: before, bad, after, complaint, rfl, List.forall_mem_cons.mpr ⟨hfirst, hbefore⟩, hbad⟩
      · exact ⟨[], first, docs, complaint, rfl, by simp, hcomplaint⟩

/-- Documents that are blocks one by one have a list of these. -/
theorem exists_blocks_iff {docs : List Json} :
    (∃ blocks, List.Forall₂ Block.Describes docs blocks) ↔ ∀ doc ∈ docs, ∃ block, Block.Describes doc block := by
  induction docs with
  | nil => exact ⟨fun _ => by simp, fun _ => ⟨[], .nil⟩⟩
  | cons first docs ih =>
      rw [List.forall_mem_cons, ← ih]
      constructor
      · rintro ⟨_, hall⟩
        obtain ⟨block, blocks, hblock, hblocks, rfl⟩ := List.forall₂_cons_left_iff.mp hall
        exact ⟨⟨block, hblock⟩, blocks, hblocks⟩
      · rintro ⟨⟨block, hblock⟩, blocks, hblocks⟩
        exact ⟨block :: blocks, .cons hblock hblocks⟩

theorem normalize_of_blocks (h : Frames doc name entry docs)
    (hblocks : ∀ part ∈ docs, ∃ block, Block.Describes part block) : ∃ pack, normalize doc = .ok pack := by
  obtain ⟨blocks, hblocks⟩ := exists_blocks_iff.mpr hblocks
  exact ⟨{ program := { name, entry, blocks } }, normalize_eq_ok.mpr ⟨rfl, docs, h, hblocks⟩⟩

theorem normalize_refuses (h : Frames doc name entry docs) {before after : List Json} {bad : Json}
    {complaint : String} (hsplit : docs = before ++ bad :: after)
    (hbefore : ∀ part ∈ before, ∃ block, Block.Describes part block) (hbad : Block.Complaint bad complaint) :
    ∃ e, normalize doc = .error e ∧ Block.Refuses before.length complaint e := by
  obtain ⟨e, he, hrefuses⟩ := Block.normalizeAll_refuses hbefore hbad 0 after
  rw [Nat.zero_add] at hrefuses
  refine ⟨e, ?_, hrefuses⟩
  rw [normalize_of_frames h, hsplit, he]
  rfl

/-- Every error about a document that is no pack is about its shape. -/
theorem code_of_normalize {e : Error} (he : normalize doc = .error e) : e.code = "VALIDATION" := by
  rcases frames_or_refused doc with ⟨name, entry, docs, hframes⟩ | ⟨defect, hdefect⟩
  · by_cases hblocks : ∀ part ∈ docs, ∃ block, Block.Describes part block
    · obtain ⟨pack, hpack⟩ := normalize_of_blocks hframes hblocks
      rw [hpack] at he
      cases he
    · obtain ⟨before, bad, after, complaint, hsplit, hbefore, hbad⟩ := exists_first_complaint hblocks
      obtain ⟨e', he', hrefuses⟩ := normalize_refuses hframes hsplit hbefore hbad
      rw [he'] at he
      cases he
      exact hrefuses.1
  · rw [hdefect] at he
    cases he
    rfl

/-- A document is a pack exactly when it names the format and holds a program with a name, an entry and blocks, each
with an operation and arguments. Every error is about its shape; and if only blocks are wrong, it names the place of
the first of them and says what is wrong there. -/
theorem normalize_exact (doc : Json) :
    ((∃ pack, normalize doc = .ok pack) ↔
      ∃ name entry docs, Frames doc name entry docs ∧ ∀ part ∈ docs, ∃ block, Block.Describes part block) ∧
    (∀ e, normalize doc = .error e → e.code = "VALIDATION") ∧
    ∀ (name entry : String) (docs : List Json) (i : Nat) (hi : i < docs.length), Frames doc name entry docs →
      (∀ part ∈ docs.take i, ∃ block, Block.Describes part block) → (¬ ∃ block, Block.Describes docs[i] block) →
        ∃ e complaint, normalize doc = .error e ∧ Block.Complaint docs[i] complaint ∧
          e.message = "validation error: block " ++ i.repr ++ complaint := by
  refine ⟨⟨?_, ?_⟩, fun e => code_of_normalize, ?_⟩
  · rintro ⟨pack, hpack⟩
    obtain ⟨-, docs, hframes, hblocks⟩ := normalize_eq_ok.mp hpack
    exact ⟨_, _, docs, hframes, exists_blocks_iff.mp ⟨_, hblocks⟩⟩
  · rintro ⟨name, entry, docs, hframes, hblocks⟩
    exact normalize_of_blocks hframes hblocks
  · intro name entry docs i hi hframes hbefore hbad
    obtain ⟨complaint, hcomplaint⟩ := (Block.describes_or_complaint docs[i]).resolve_left hbad
    have hsplit : docs = docs.take i ++ docs[i] :: docs.drop (i + 1) := by
      rw [← List.drop_eq_getElem_cons hi, List.take_append_drop]
    obtain ⟨e, he, -, hmessage⟩ := normalize_refuses hframes hsplit hbefore hcomplaint
    rw [List.length_take_of_le (Nat.le_of_lt hi)] at hmessage
    exact ⟨e, complaint, he, hcomplaint, hmessage⟩

/-- Three blocks of which the second lacks arguments and the third is no object. -/
def brokenBlocks : List Json :=
  [.object [("args", .object []), ("op", .string "halt")], .object [("args", .null), ("op", .string "halt")], .null]

def brokenPack : Json :=
  .object
    [("format", .string "matrix.program.v1"),
      ("program", .object [("blocks", .array brokenBlocks), ("entry", .string "main"), ("name", .string "p")])]

/-- The error is about the second of the three blocks. -/
theorem normalize_exact_secondBlock :
    ∃ e, normalize brokenPack = .error e ∧ e.message = "validation error: block 1: args must be an object" := by
  have hhalt : "halt" ≠ "" := by decide
  have hargs : ∀ args : List (String × Json), some Json.null ≠ some (.object args) := by rintro args ⟨⟩
  have hfirst : ∀ part ∈ brokenBlocks.take 1, ∃ block, Block.Describes part block :=
    List.forall_mem_singleton.mpr ⟨_, .object rfl hhalt rfl⟩
  have hsecond : ¬ ∃ block, Block.Describes brokenBlocks[1] block := by
    rintro ⟨block, ⟨-, -, hfound⟩⟩
    exact hargs _ hfound
  obtain ⟨e, complaint, he, hcomplaint, hmessage⟩ :=
    (normalize_exact brokenPack).2.2 "p" "main" brokenBlocks 1 (by decide) (.object rfl rfl rfl rfl rfl) hfirst hsecond
  refine ⟨e, he, ?_⟩
  cases hcomplaint with
  | notObject other => exact absurd rfl (other _)
  | op unnamed => exact absurd (unnamed "halt" rfl) hhalt
  | args =>
      rw [hmessage]
      decide +kernel

end ProgramPack

end StampedPrograms
