import StampedPrograms.Proofs.Compiled.Embedded
import StampedPrograms.Proofs.Json.Readable
import StampedPrograms.Proofs.Program.WellFormed
import StampedPrograms.Proofs.Value.Document

/-!
Normalizing what is normal. A policy or a pack that a document brings is written under the names that reading looks
for, with nothing left to a default and its lists in order already; so its own document brings it again.
-/

namespace StampedPrograms

namespace Utf16

/-- Sorting leaves a sorted list as it is. -/
theorem sort_of_sorted {names : List String} (h : Sorted id names) : sort names = names :=
  (sortBy_perm id names).eq_of_pairwise (fun _ _ _ _ => order_antisymm) (sorted_sortBy id names) h

end Utf16

namespace Policy

/-- The lists of a policy, each under its name in a document. -/
def lists (p : Policy) : List (String × List String) :=
  [("allowed_routes", p.allowedRoutes), ("allowed_plugins", p.allowedPlugins),
    ("field_allowlist", p.fieldAllowlist), ("param_allowlist", p.paramAllowlist)]

/-- What normalizing holds a policy to. -/
structure Normal (p : Policy) : Prop where
  version : p.version = 1
  positive : 1 ≤ p.maxDepth.toNat
  limit : p.maxDepth.toNat ≤ maxDepthLimit
  sorted : ∀ entry ∈ p.lists, Utf16.Sorted id entry.2

variable {doc : Json} {p : Policy}

/-! ### What a document brings -/

theorem readList_of_mem (h : normalize doc = .ok p) {entry : String × List String} (hentry : entry ∈ p.lists) :
    readList doc entry.1 = .ok entry.2 := by
  obtain ⟨-, -, -, -, -, -, -, -, -, hroutes, hplugins, hfields, hparams⟩ := normalize_eq_ok.mp h
  simp only [lists, List.mem_cons, List.not_mem_nil, or_false] at hentry
  rcases hentry with rfl | rfl | rfl | rfl
  · exact hroutes
  · exact hplugins
  · exact hfields
  · exact hparams

/-- Each list of the policy holds what the document lists, sorted. -/
theorem lists_of_normalize (h : normalize doc = .ok p) {entry : String × List String} (hentry : entry ∈ p.lists) :
    ∃ names, Lists doc entry.1 names ∧ entry.2.Perm names ∧ Utf16.Sorted id entry.2 := by
  obtain ⟨names, hnames, hsorted⟩ := lists_of_readList (readList_of_mem h hentry)
  rw [hsorted]
  exact ⟨names, hnames, Utf16.sortBy_perm id names, Utf16.sorted_sortBy id names⟩

theorem Normal.of_normalize (h : normalize doc = .ok p) : p.Normal := by
  obtain ⟨-, hversion, hdepth, -⟩ := normalize_eq_ok.mp h
  obtain ⟨hpositive, hlimit⟩ := bounds_of_readDepth hdepth
  refine ⟨hversion, hpositive, hlimit, fun entry hentry => ?_⟩
  obtain ⟨-, -, -, hsorted⟩ := lists_of_normalize h hentry
  exact hsorted

/-! ### What its own document brings -/

section

variable {name : String}

theorem isVersion1_of_member (h : doc.member? "matrix_policy_version" = some (.ofUInt32 1)) :
    isVersion1 doc = true := by
  rw [isVersion1, h]
  decide +kernel

theorem readFlag_bool {b : Bool} (h : doc.member? name = some (.bool b)) : readFlag doc name = .ok b := by
  rw [readFlag, Json.present?, h]

theorem readList_sorted {names : List String} (h : doc.member? name = some (.ofStrings names))
    (hsorted : Utf16.Sorted id names) : readList doc name = .ok names :=
  (readList_array h names).mpr ⟨names, rfl, (Utf16.sort_of_sorted hsorted).symm⟩

/-- A depth is small enough to be the double that it is read as. -/
theorem readDepth_ofUInt32 {depth : UInt32} (h : doc.member? "max_depth" = some (.ofUInt32 depth))
    (hpositive : 1 ≤ depth.toNat) (hlimit : depth.toNat ≤ maxDepthLimit) : readDepth doc = .ok depth := by
  have hsmall : (depth.toNat : Int).natAbs < 2 * Binary64.leadingBit := by
    rw [Int.natAbs_natCast, Binary64.leadingBit]
    unfold maxDepthLimit at hlimit
    omega
  have hread : (Json.ofUInt32 depth).asBinary64? = some (.ofInt depth.toNat) := rfl
  have hbounds : (Binary64.ofInt depth.toNat).isIntegral = true ∧ 1 ≤ (Binary64.ofInt depth.toNat).truncate ∧
      (Binary64.ofInt depth.toNat).truncate ≤ maxDepthLimit := by
    rw [Binary64.truncate_ofInt hsmall]
    exact ⟨Binary64.isIntegral_ofInt hsmall, Int.ofNat_le.mpr hpositive, Int.ofNat_le.mpr hlimit⟩
  have hpresent : doc.present? "max_depth" = some (.ofUInt32 depth) := by rw [Json.present?, h]; rfl
  rw [readDepth, hpresent]
  dsimp only
  rw [hread]
  dsimp only
  rw [if_pos hbounds, Binary64.whole_ofInt hsmall, Int.natAbs_natCast, UInt32.ofNat_toNat]

end

/-- A policy that is normal is what its own document brings. -/
theorem normalize_toJson (h : p.Normal) : normalize (toJson p) = .ok p := by
  have hversion : (toJson p).member? "matrix_policy_version" = some (.ofUInt32 p.version) :=
    Json.member?_ofPairs ..
  rw [h.version] at hversion
  have hsorted := h.sorted
  simp only [lists, List.forall_mem_cons] at hsorted
  obtain ⟨hroutes, hplugins, hfields, hparams, -⟩ := hsorted
  exact normalize_eq_ok.mpr ⟨isVersion1_of_member hversion, h.version,
    readDepth_ofUInt32 (Json.member?_ofPairs ..) h.positive h.limit,
    readFlag_bool (Json.member?_ofPairs ..), readFlag_bool (Json.member?_ofPairs ..),
    readFlag_bool (Json.member?_ofPairs ..), readFlag_bool (Json.member?_ofPairs ..),
    readFlag_bool (Json.member?_ofPairs ..), readFlag_bool (Json.member?_ofPairs ..),
    readList_sorted (Json.member?_ofPairs ..) hroutes, readList_sorted (Json.member?_ofPairs ..) hplugins,
    readList_sorted (Json.member?_ofPairs ..) hfields, readList_sorted (Json.member?_ofPairs ..) hparams⟩

/-- The normal policies are the ones that documents bring. -/
theorem normal_iff : p.Normal ↔ ∃ doc, normalize doc = .ok p :=
  ⟨fun h => ⟨toJson p, normalize_toJson h⟩, fun ⟨_, h⟩ => .of_normalize h⟩

end Policy

namespace ProgramPack

/-- A pack that some document brings, whatever the order of its members, is what its own document brings. -/
theorem normalize_toJson_of_normalize {doc : Json} {pack : ProgramPack} (h : normalize doc = .ok pack) :
    normalize (toJson pack) = .ok pack := by
  obtain ⟨hformat, docs, -, hblocks⟩ := normalize_eq_ok.mp h
  exact normalize_toJson hformat (Block.named_of_describes hblocks)

end ProgramPack

/-- A policy that a document brings has its depth in the bounds and the lists of the document, sorted; a pack has the
blocks of the document in their order. Either is what its own document brings, under the same digest. -/
theorem normalization_idempotent :
    (∀ (doc : Json) (p : Policy), Policy.normalize doc = .ok p →
      (1 ≤ p.maxDepth.toNat ∧ p.maxDepth.toNat ≤ 4096) ∧
      (∀ entry ∈ p.lists, ∃ names, Policy.Lists doc entry.1 names ∧ entry.2.Perm names ∧
        Utf16.Sorted id entry.2) ∧
      Policy.normalize (toJson p) = .ok p ∧ (Policy.normalize (toJson p)).map Policy.digest = .ok p.digest) ∧
    ∀ (doc : Json) (q : ProgramPack), ProgramPack.normalize doc = .ok q →
      (∃ docs, ProgramPack.Frames doc q.program.name q.program.entry docs ∧
        List.Forall₂ Block.Describes docs q.blocks) ∧
      ProgramPack.normalize (toJson q) = .ok q ∧
      (ProgramPack.normalize (toJson q)).map ProgramPack.digest = .ok q.digest := by
  constructor
  · intro doc p h
    have hnormal : p.Normal := .of_normalize h
    have hagain := Policy.normalize_toJson hnormal
    refine ⟨⟨hnormal.positive, hnormal.limit⟩, fun entry => Policy.lists_of_normalize h, hagain, ?_⟩
    rw [hagain]
    rfl
  · intro doc q h
    have hagain := ProgramPack.normalize_toJson_of_normalize h
    refine ⟨(ProgramPack.normalize_eq_ok.mp h).2, hagain, ?_⟩
    rw [hagain]
    rfl

/-- A policy that grants storage and the full depth, with two fields in the order of code points. -/
def fullDepthPolicy : Json :=
  .ofPairs [("matrix_policy_version", .ofUInt32 1), ("allow_idb", .bool true),
    ("max_depth", .number (.float (.ofNat 4096) (by decide +kernel))), ("field_allowlist", .ofStrings ["Ａ", "😀"])]

/-- A pack with a remark, and a block that has one too. -/
def remarkedPack : Json :=
  .ofPairs [("format", .string packFormat), ("remark", .null), ("program", .ofPairs
    [("name", .string "p"), ("entry", .string "main"), ("blocks", .array
      [.ofPairs [("op", .string "halt"), ("args", .object [("a", .array []), ("b", .null)]), ("remark", .null)]])])]

/-- The policy comes back with its fields in the order of code units, and the pack without the remarks. -/
theorem normalization_idempotent_remarkedPack :
    (∃ p, Policy.normalize fullDepthPolicy = .ok p ∧ p.maxDepth = 4096 ∧ p.allowStorage = true ∧
      p.fieldAllowlist = ["😀", "Ａ"] ∧ Policy.normalize (toJson p) = .ok p) ∧
    ∃ q, ProgramPack.normalize remarkedPack = .ok q ∧
      q.blocks = [⟨"halt", [("a", .array []), ("b", .null)]⟩] ∧ ProgramPack.normalize (toJson q) = .ok q := by
  obtain ⟨hpolicies, hpacks⟩ := normalization_idempotent
  constructor
  · have hsome : (Policy.normalize fullDepthPolicy).toOption.map
        (fun p => (p.maxDepth, p.allowStorage, p.fieldAllowlist)) = some (4096, true, ["😀", "Ａ"]) := by
      decide +kernel
    obtain ⟨p, hp, hentries⟩ := Option.map_eq_some_iff.mp hsome
    obtain ⟨hdepth, hentries⟩ := Prod.mk.inj hentries
    obtain ⟨hstorage, hfields⟩ := Prod.mk.inj hentries
    have hnormal := toOption_eq_some.mp hp
    obtain ⟨-, -, hagain, -⟩ := hpolicies _ p hnormal
    exact ⟨p, hnormal, hdepth, hstorage, hfields, hagain⟩
  · have hnormal : ProgramPack.normalize remarkedPack =
        .ok { program := ⟨"p", "main", [⟨"halt", [("a", .array []), ("b", .null)]⟩]⟩ } := by
      refine ProgramPack.normalize_eq_ok.mpr ⟨rfl, _, .object rfl rfl rfl rfl rfl, ?_⟩
      exact .cons (.object rfl (by decide) rfl) .nil
    obtain ⟨-, hagain, -⟩ := hpacks _ _ hnormal
    exact ⟨_, hnormal, rfl, hagain⟩

end StampedPrograms
