import StampedPrograms.Policy
import StampedPrograms.Proofs.Error

/-!
What a policy document must say to bring a policy, entry by entry.
-/

namespace StampedPrograms

theorem Json.strings_eq_ok {otherwise : Defect} {items : List Json} {xs : List String} :
    strings otherwise items = .ok xs ↔ items = xs.map .string := by
  induction items generalizing xs with
  | nil =>
      cases xs with
      | nil => exact iff_of_true rfl rfl
      | cons x xs => exact iff_of_false (by rintro ⟨⟩) (by rintro ⟨⟩)
  | cons item items ih =>
      rw [strings] at ih ⊢
      rw [List.mapM_cons, bind_eq_ok]
      constructor
      · rintro ⟨x, hx, h⟩
        obtain ⟨rest, hrest, ⟨⟩⟩ := bind_eq_ok.mp h
        cases item with
        | string s =>
            cases hx
            rw [List.map_cons, ih.mp hrest]
        | _ => cases hx
      · intro h
        obtain ⟨x, rest, rfl, rfl, hrest⟩ := List.map_eq_cons_iff.mp h.symm
        exact ⟨x, rfl, bind_eq_ok.mpr ⟨rest, ih.mpr hrest.symm, rfl⟩⟩

namespace Policy

variable {doc : Json} {name : String}

theorem readList_array {items : List Json} (h : doc.member? name = some (.array items)) (out : List String) :
    readList doc name = .ok out ↔ ∃ xs, items = xs.map .string ∧ out = Utf16.sort xs := by
  rw [readList, Json.present?, h]
  constructor
  · intro hread
    obtain ⟨xs, hxs, ⟨⟩⟩ := bind_eq_ok.mp hread
    exact ⟨xs, Json.strings_eq_ok.mp hxs, rfl⟩
  · rintro ⟨xs, hxs, rfl⟩
    exact bind_eq_ok.mpr ⟨xs, Json.strings_eq_ok.mpr hxs, rfl⟩

theorem asObject?_of_isVersion1 (h : isVersion1 doc = true) : doc.asObject?.isNone = false := by
  cases doc with
  | object members => rfl
  | _ => cases h

/-- What brings a policy: the version, and an entry for every field. -/
theorem normalize_eq_ok {p : Policy} :
    normalize doc = .ok p ↔
      isVersion1 doc = true ∧ p.version = 1 ∧ readDepth doc = .ok p.maxDepth ∧
      readFlag doc "allow_network" = .ok p.allowNetwork ∧ readFlag doc "allow_exec" = .ok p.allowExec ∧
      readFlag doc "allow_fs_read" = .ok p.allowFsRead ∧ readFlag doc "allow_fs_write" = .ok p.allowFsWrite ∧
      readFlag doc "allow_idb" = .ok p.allowStorage ∧ readFlag doc "allow_crypto" = .ok p.allowCrypto ∧
      readList doc "allowed_routes" = .ok p.allowedRoutes ∧
      readList doc "allowed_plugins" = .ok p.allowedPlugins ∧
      readList doc "field_allowlist" = .ok p.fieldAllowlist ∧
      readList doc "param_allowlist" = .ok p.paramAllowlist := by
  cases hversion : isVersion1 doc with
  | true =>
      have hobject := asObject?_of_isVersion1 hversion
      simp only [normalize, hobject, hversion, Bool.not_true, Bool.false_eq_true, if_false, bind_eq_ok,
        true_and]
      constructor
      · rintro ⟨depth, hdepth, network, hnetwork, exec, hexec, fsRead, hfsRead, fsWrite, hfsWrite, storage,
          hstorage, crypto, hcrypto, routes, hroutes, plugins, hplugins, fields, hfields, params, hparams, ⟨⟩⟩
        exact ⟨rfl, hdepth, hnetwork, hexec, hfsRead, hfsWrite, hstorage, hcrypto, hroutes, hplugins, hfields,
          hparams⟩
      · rintro ⟨hone, hdepth, hnetwork, hexec, hfsRead, hfsWrite, hstorage, hcrypto, hroutes, hplugins, hfields,
          hparams⟩
        refine ⟨_, hdepth, _, hnetwork, _, hexec, _, hfsRead, _, hfsWrite, _, hstorage, _, hcrypto, _, hroutes,
          _, hplugins, _, hfields, _, hparams, ?_⟩
        rw [← hone]
        rfl
  | false =>
      refine iff_of_false (fun h => ?_) (fun h => Bool.false_ne_true h.1)
      rw [normalize, hversion] at h
      split at h <;> cases h

end Policy

end StampedPrograms
