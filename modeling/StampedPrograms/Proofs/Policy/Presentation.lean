import Mathlib.Data.List.Perm.Basic
import StampedPrograms.Stamp.Program
import StampedPrograms.Proofs.Json.Equality
import StampedPrograms.Proofs.Policy.Normal
import StampedPrograms.Proofs.Text.Utf16

/-!
Identities do not see how things are presented. Two policy documents that differ in the order of their lists,
in names that no policy has, in what is left out or spelled out, and in the kinds of their numbers bring the
same policy or none; and neither the policy's identity nor an envelope sees the difference. Nor do the orders
of plugins, fields and parameters matter.
-/

namespace StampedPrograms

/-! ### Lists of strings -/

theorem exists_eq_map_string {items : List Json} (h : ∀ item ∈ items, ∃ s, item = .string s) :
    ∃ xs : List String, items = xs.map .string := by
  induction items with
  | nil => exact ⟨[], rfl⟩
  | cons item items ih =>
      obtain ⟨⟨s, rfl⟩, hrest⟩ := List.forall_mem_cons.mp h
      obtain ⟨xs, rfl⟩ := ih hrest
      exact ⟨s :: xs, rfl⟩

/-- Another arrangement of a list of strings is again a list of strings. -/
theorem exists_strings_of_perm {xs : List String} {others : List Json}
    (h : ((xs.map Json.string).map Value.inOrder).Perm (others.map Value.inOrder)) :
    ∃ ys, others = ys.map .string ∧ xs.Perm ys := by
  have hstrings : ∀ other ∈ others, ∃ s, other = .string s := by
    intro other hother
    have hmem := h.mem_iff.mpr (List.mem_map_of_mem hother)
    rw [List.map_map] at hmem
    obtain ⟨s, -, hs⟩ := List.mem_map.mp hmem
    have halike : (Json.string s).Alike other := hs
    cases halike.parts
    exact ⟨s, rfl⟩
  obtain ⟨ys, rfl⟩ := exists_eq_map_string hstrings
  rw [List.map_map, List.map_map] at h
  have hinjective : Function.Injective (Value.inOrder ∘ Json.string) := fun _ _ => Value.string.inj
  exact ⟨ys, rfl, (List.map_perm_map_iff hinjective).mp h⟩

namespace Policy

/-! ### Presentation -/

/-- An entry that says nothing but what holds anyway. -/
inductive Unsaid (default : Json) : Option Json → Prop where
  | missing : Unsaid default none
  | null : Unsaid default (some .null)
  | spelled {found : Json} (same : found.Alike default) : Unsaid default (some found)

/-- Two entries under one name that differ in nothing but presentation. -/
inductive SameEntry (default : Json) : Option Json → Option Json → Prop where
  | unsaid {entry other : Option Json} (first : Unsaid default entry) (second : Unsaid default other) :
      SameEntry default entry other
  | alike {found other : Json} (same : found.Alike other) : SameEntry default (some found) (some other)
  | rearranged {items others : List Json}
      (same : (items.map Value.inOrder).Perm (others.map Value.inOrder)) :
      SameEntry default (some (.array items)) (some (.array others))

/-- The switches of a policy document. -/
def flagNames : List String :=
  ["allow_network", "allow_exec", "allow_fs_read", "allow_fs_write", "allow_idb", "allow_crypto"]

/-- The lists of a policy document. -/
def listNames : List String :=
  ["allowed_routes", "allowed_plugins", "field_allowlist", "param_allowlist"]

/-- Two policy documents that differ in presentation only. The version is the one entry that nothing stands
for, and what they say under any other name is no matter. -/
structure SamePresented (doc other : Json) : Prop where
  version : SameEntry .null (doc.member? "matrix_policy_version") (other.member? "matrix_policy_version")
  depth : SameEntry (.ofUInt32 64) (doc.member? "max_depth") (other.member? "max_depth")
  flags : ∀ name ∈ flagNames, SameEntry (.bool false) (doc.member? name) (other.member? name)
  lists : ∀ name ∈ listNames, SameEntry (.array []) (doc.member? name) (other.member? name)

variable {doc other : Json} {name : String}

/-! ### Switches -/

theorem readFlag_unsaid (h : Unsaid (.bool false) (doc.member? name)) : readFlag doc name = .ok false := by
  generalize hentry : doc.member? name = entry at h
  rw [readFlag, Json.present?, hentry]
  cases h with
  | missing => rfl
  | null => rfl
  | spelled same =>
      cases same.parts
      rfl

theorem readFlag_same (h : SameEntry (.bool false) (doc.member? name) (other.member? name)) (b : Bool) :
    readFlag doc name = .ok b ↔ readFlag other name = .ok b := by
  generalize hdoc : doc.member? name = entry at h
  generalize hother : other.member? name = entry' at h
  cases h with
  | unsaid first second => rw [readFlag_unsaid (hdoc ▸ first), readFlag_unsaid (hother ▸ second)]
  | alike same => cases same.parts <;> simp [readFlag, Json.present?, hdoc, hother]
  | rearranged same => simp [readFlag, Json.present?, hdoc, hother]

/-! ### Lists -/

theorem readList_unsaid (h : Unsaid (.array []) (doc.member? name)) : readList doc name = .ok [] := by
  generalize hentry : doc.member? name = entry at h
  rw [readList, Json.present?, hentry]
  cases h with
  | missing => rfl
  | null => rfl
  | spelled same =>
      cases same.parts with
      | array images =>
          rw [List.map_eq_nil_iff.mp images]
          rfl

theorem readList_rearranged {items others : List Json} (hdoc : doc.member? name = some (.array items))
    (hother : other.member? name = some (.array others))
    (h : (items.map Value.inOrder).Perm (others.map Value.inOrder)) {out : List String}
    (hread : readList doc name = .ok out) : readList other name = .ok out := by
  obtain ⟨xs, rfl, rfl⟩ := (readList_array hdoc out).mp hread
  obtain ⟨ys, rfl, hperm⟩ := exists_strings_of_perm h
  exact (readList_array hother _).mpr ⟨ys, rfl, Utf16.sort_eq_sort_iff.mpr hperm⟩

theorem readList_same (h : SameEntry (.array []) (doc.member? name) (other.member? name))
    (out : List String) : readList doc name = .ok out ↔ readList other name = .ok out := by
  generalize hdoc : doc.member? name = entry at h
  generalize hother : other.member? name = entry' at h
  cases h with
  | unsaid first second => rw [readList_unsaid (hdoc ▸ first), readList_unsaid (hother ▸ second)]
  | rearranged same =>
      exact ⟨readList_rearranged hdoc hother same, readList_rearranged hother hdoc same.symm⟩
  | alike same =>
      cases same.parts with
      | array images =>
          have hperm := List.Perm.of_eq images
          exact ⟨readList_rearranged hdoc hother hperm, readList_rearranged hother hdoc hperm.symm⟩
      | _ => simp [readList, Json.present?, hdoc, hother]

/-! ### Numbers -/

theorem readDepth_alike {found found' : Json} (hdoc : doc.member? "max_depth" = some found)
    (hother : other.member? "max_depth" = some found') (h : found.Alike found') :
    readDepth doc = readDepth other := by
  rw [readDepth, readDepth, Json.present?, Json.present?, hdoc, hother]
  cases h.parts with
  | @number m n same =>
      obtain ⟨hmagnitude, -⟩ := Binary64.unsignedZero_eq_iff.mp same
      have hintegral : m.toBinary64.isIntegral = n.toBinary64.isIntegral := by
        rw [← Binary64.isIntegral_unsignedZero, same, Binary64.isIntegral_unsignedZero]
      have htruncate : m.toBinary64.truncate = n.toBinary64.truncate := by
        rw [← Binary64.truncate_unsignedZero, same, Binary64.truncate_unsignedZero]
      have hwhole : m.toBinary64.whole = n.toBinary64.whole := by
        rw [Binary64.whole, Binary64.whole, hmagnitude]
      simp only [Json.asBinary64?, hintegral, htruncate, hwhole]
  | _ => rfl

theorem readDepth_unsaid (h : Unsaid (.ofUInt32 64) (doc.member? "max_depth")) : readDepth doc = .ok 64 := by
  generalize hentry : doc.member? "max_depth" = entry at h
  cases h with
  | missing => rw [readDepth, Json.present?, hentry]
  | null => rw [readDepth, Json.present?, hentry]
  | spelled same =>
      have hspelled : (Json.ofPairs [("max_depth", .ofUInt32 64)]).member? "max_depth" =
          some (.ofUInt32 64) := rfl
      rw [readDepth_alike hentry hspelled same]
      exact toOption_eq_some.mp (by decide +kernel)

theorem readDepth_same (h : SameEntry (.ofUInt32 64) (doc.member? "max_depth") (other.member? "max_depth"))
    (depth : UInt32) : readDepth doc = .ok depth ↔ readDepth other = .ok depth := by
  generalize hdoc : doc.member? "max_depth" = entry at h
  generalize hother : other.member? "max_depth" = entry' at h
  cases h with
  | unsaid first second => rw [readDepth_unsaid (hdoc ▸ first), readDepth_unsaid (hother ▸ second)]
  | alike same => rw [readDepth_alike hdoc hother same]
  | rearranged same =>
      rw [readDepth, readDepth, Json.present?, Json.present?, hdoc, hother]
      rfl

theorem isVersion1_unsaid (h : Unsaid .null (doc.member? "matrix_policy_version")) : isVersion1 doc = false := by
  generalize hentry : doc.member? "matrix_policy_version" = entry at h
  rw [isVersion1, hentry]
  cases h with
  | missing => rfl
  | null => rfl
  | spelled same =>
      cases same.parts
      rfl

theorem isVersion1_same
    (h : SameEntry .null (doc.member? "matrix_policy_version") (other.member? "matrix_policy_version")) :
    isVersion1 doc = isVersion1 other := by
  generalize hdoc : doc.member? "matrix_policy_version" = entry at h
  generalize hother : other.member? "matrix_policy_version" = entry' at h
  cases h with
  | unsaid first second => rw [isVersion1_unsaid (hdoc ▸ first), isVersion1_unsaid (hother ▸ second)]
  | alike same =>
      rw [isVersion1, isVersion1, hdoc, hother]
      cases same.parts with
      | number images => exact Binary64.sameNumber_of_unsignedZero_eq images (.ofNat 1)
      | _ => rfl
  | rearranged same =>
      rw [isVersion1, isVersion1, hdoc, hother]
      rfl

/-! ### Policies -/

/-- Documents that differ in presentation only bring the same policy, or both of them none. -/
theorem normalize_same (h : SamePresented doc other) (p : Policy) :
    normalize doc = .ok p ↔ normalize other = .ok p := by
  have hflag (name : String) (hname : name ∈ flagNames) (b : Bool) :
      readFlag doc name = .ok b ↔ readFlag other name = .ok b :=
    readFlag_same (h.flags name hname) b
  have hlist (name : String) (hname : name ∈ listNames) (out : List String) :
      readList doc name = .ok out ↔ readList other name = .ok out :=
    readList_same (h.lists name hname) out
  rw [normalize_eq_ok, normalize_eq_ok, isVersion1_same h.version, readDepth_same h.depth,
    hflag "allow_network" (by simp [flagNames]), hflag "allow_exec" (by simp [flagNames]),
    hflag "allow_fs_read" (by simp [flagNames]), hflag "allow_fs_write" (by simp [flagNames]),
    hflag "allow_idb" (by simp [flagNames]), hflag "allow_crypto" (by simp [flagNames]),
    hlist "allowed_routes" (by simp [listNames]), hlist "allowed_plugins" (by simp [listNames]),
    hlist "field_allowlist" (by simp [listNames]), hlist "param_allowlist" (by simp [listNames])]

end Policy

/-- Policy documents that differ in presentation only bring one policy or none, with one identity and, for
every program and whatever the order of the plugins, one envelope. Options bring the same restrictions in
whatever order they list the fields and the parameters. -/
theorem presentation_ignored :
    (∀ doc other : Json, Policy.SamePresented doc other →
      ∀ p : Policy, Policy.normalize doc = .ok p ↔ Policy.normalize other = .ok p) ∧
    (∀ (doc other : Json) (p q : Policy) (pack : ProgramPack) (options others : IssueOptions),
      Policy.SamePresented doc other → Policy.normalize doc = .ok p → Policy.normalize other = .ok q →
      options.plugins.Perm others.plugins → options.target = others.target →
      p.digest = q.digest ∧ ProgramEnvelope.issue p pack options = ProgramEnvelope.issue q pack others) ∧
    ∀ options others : CompileOptions, options.maxDepth = others.maxDepth →
      options.fields.Perm others.fields → options.params.Perm others.params →
      options.normalize = others.normalize := by
  refine ⟨fun _ _ => Policy.normalize_same, ?_, ?_⟩
  · intro doc other p q pack options others hsame hp hq hplugins htarget
    have hpolicy : p = q := Except.ok.inj (((Policy.normalize_same hsame p).mp hp).symm.trans hq)
    have hsorted : Utf16.sort options.plugins = Utf16.sort others.plugins :=
      Utf16.sort_eq_sort_iff.mpr hplugins
    refine ⟨congrArg Policy.digest hpolicy, ?_⟩
    rw [ProgramEnvelope.issue, ProgramEnvelope.issue, ProgramEnvelope.capabilitiesDigest,
      ProgramEnvelope.capabilitiesDigest, hpolicy, htarget, hsorted]
  · intro options others hdepth hfields hparams
    rw [CompileOptions.normalize, CompileOptions.normalize, hdepth, Utf16.sort_eq_sort_iff.mpr hfields,
      Utf16.sort_eq_sort_iff.mpr hparams]

/-- A policy with two routes. -/
def shortPolicy : Json :=
  .ofPairs [("matrix_policy_version", .ofUInt32 1), ("max_depth", .null),
    ("allowed_routes", .ofStrings ["Ａ", "😀"])]

/-- The same policy with defaults spelled out, other kinds of numbers, and a remark. -/
def longPolicy : Json :=
  .ofPairs [("remark", .string "none"), ("allow_idb", .bool false),
    ("matrix_policy_version", .number (.float (.ofNat 1) (by decide +kernel))),
    ("max_depth", .number (.float (.ofNat 64) (by decide +kernel))),
    ("allowed_routes", .ofStrings ["😀", "Ａ"])]

theorem samePresented_longPolicy : Policy.SamePresented shortPolicy longPolicy where
  version := by
    have halike : (Json.ofUInt32 1).Alike (.number (.float (.ofNat 1) (by decide +kernel))) :=
      Json.alike_integer _ _ (by decide +kernel) (by decide +kernel)
    exact .alike halike
  depth := by
    have halike : (Json.ofUInt32 64).Alike (.number (.float (.ofNat 64) (by decide +kernel))) :=
      Json.alike_integer _ _ (by decide +kernel) (by decide +kernel)
    exact .unsaid .null (.spelled halike.symm)
  flags := by
    intro name hname
    simp only [Policy.flagNames, List.mem_cons, List.not_mem_nil, or_false] at hname
    rcases hname with rfl | rfl | rfl | rfl | rfl | rfl
    case inr.inr.inr.inr.inl => exact .unsaid .missing (.spelled rfl)
    all_goals exact .unsaid .missing .missing
  lists := by
    intro name hname
    simp only [Policy.listNames, List.mem_cons, List.not_mem_nil, or_false] at hname
    rcases hname with rfl | rfl | rfl | rfl
    case inl => exact .rearranged (.swap ..)
    all_goals exact .unsaid .missing .missing

/-- The two routes are in the order of code points in one document and in that of code units in the other. -/
theorem presentation_ignored_longPolicy :
    Policy.SamePresented shortPolicy longPolicy ∧
    ∃ p : Policy, Policy.normalize shortPolicy = .ok p ∧ Policy.normalize longPolicy = .ok p ∧
      p.allowedRoutes = ["😀", "Ａ"] ∧
      (∀ pack : ProgramPack, ProgramEnvelope.issue p pack { plugins := ["idb", "kql"] } =
        ProgramEnvelope.issue p pack { plugins := ["kql", "idb"] }) ∧
      CompileOptions.normalize { fields := ["Ａ", "😀"] } = CompileOptions.normalize { fields := ["😀", "Ａ"] } := by
  obtain ⟨hsame, hissued, hrestrictions⟩ := presentation_ignored
  have hsome : (Policy.normalize shortPolicy).toOption.map Policy.allowedRoutes = some ["😀", "Ａ"] := by
    decide +kernel
  obtain ⟨p, hp, hroutes⟩ := Option.map_eq_some_iff.mp hsome
  have hshort := toOption_eq_some.mp hp
  have hlong := (hsame _ _ samePresented_longPolicy p).mp hshort
  refine ⟨samePresented_longPolicy, p, hshort, hlong, hroutes, fun pack => ?_, ?_⟩
  · exact (hissued _ _ p p pack { plugins := ["idb", "kql"] } { plugins := ["kql", "idb"] }
      samePresented_longPolicy hshort hlong (.swap ..) rfl).2
  · exact hrestrictions { fields := ["Ａ", "😀"] } { fields := ["😀", "Ａ"] } rfl (.swap ..) (.refl _)

end StampedPrograms
