import StampedPrograms.Text.Utf16

/-!
Code units determine a string, so comparing them is a linear order of strings. Sorting by them only moves
items, looks at nothing but their names, and brings all arrangements of a list of strings to one.
-/

namespace StampedPrograms.Utf16

variable {α β : Type}

theorem place_perm (name : α → String) (item : α) (items : List α) :
    (place name item items).Perm (item :: items) := by
  induction items with
  | nil => exact .refl _
  | cons head rest ih =>
      rw [place]
      split
      · exact (ih.cons head).trans (.swap ..)
      · exact .refl _

theorem sortBy_perm (name : α → String) (items : List α) : (sortBy name items).Perm items := by
  induction items with
  | nil => exact .refl _
  | cons item items ih => exact (place_perm name item _).trans (ih.cons item)

theorem place_map (name : β → String) (f : α → β) (item : α) (items : List α) :
    place name (f item) (items.map f) = (place (name ∘ f) item items).map f := by
  induction items with
  | nil => rfl
  | cons head rest ih =>
      rw [List.map_cons, place, place, ih, Function.comp_apply, Function.comp_apply]
      split <;> rfl

theorem sortBy_map (name : β → String) (f : α → β) (items : List α) :
    sortBy name (items.map f) = (sortBy (name ∘ f) items).map f := by
  induction items with
  | nil => rfl
  | cons item items ih =>
      change place name (f item) (sortBy name (items.map f)) = _
      rw [ih, place_map]
      rfl

/-! ### The order -/

/-- A character is no surrogate, and its code has at most 21 binary digits. -/
theorem code_cases (c : Char) : c.toNat < 0xD800 ∨ 0xE000 ≤ c.toNat ∧ c.toNat < 0x110000 := by
  have hvalid : c.toNat.isValidChar := c.valid
  exact hvalid.imp_right fun h => ⟨Nat.succ_le_of_lt h.1, h.2⟩

/-- The units of a character are told from whatever stands behind them: a surrogate is no unit of the basic
plane. -/
theorem unitsOfChar_append_inj {c d : Char} {us vs : List Nat}
    (h : unitsOfChar c ++ us = unitsOfChar d ++ vs) : c = d ∧ us = vs := by
  have hc := code_cases c
  have hd := code_cases d
  unfold unitsOfChar at h
  dsimp only at h
  split at h <;> split at h
  · next hbasic hbasic' =>
      obtain ⟨hcode, hrest⟩ := List.cons.inj h
      exact ⟨Char.toNat_inj.mp hcode, hrest⟩
  · next hbasic hbeyond =>
      obtain ⟨hcode, -⟩ := List.cons.inj h
      omega
  · next hbeyond hbasic =>
      obtain ⟨hcode, -⟩ := List.cons.inj h
      omega
  · next hbeyond hbeyond' =>
      obtain ⟨hhigh, h⟩ := List.cons.inj h
      obtain ⟨hlow, hrest⟩ := List.cons.inj h
      exact ⟨Char.toNat_inj.mp (by omega), hrest⟩

theorem flatMap_unitsOfChar_inj {cs ds : List Char} (h : cs.flatMap unitsOfChar = ds.flatMap unitsOfChar) :
    cs = ds := by
  have hne (c : Char) (cs : List Char) : (c :: cs).flatMap unitsOfChar ≠ [] := by
    rw [List.flatMap_cons, unitsOfChar]
    split <;> simp
  induction cs generalizing ds with
  | nil =>
      cases ds with
      | nil => rfl
      | cons d ds => exact absurd h.symm (hne d ds)
  | cons c cs ih =>
      cases ds with
      | nil => exact absurd h (hne c cs)
      | cons d ds =>
          rw [List.flatMap_cons, List.flatMap_cons] at h
          obtain ⟨rfl, hrest⟩ := unitsOfChar_append_inj h
          rw [ih hrest]

theorem units_inj {a b : String} (h : units a = units b) : a = b :=
  String.toList_inj.mp (flatMap_unitsOfChar_inj h)

instance : Std.OrientedCmp order where
  eq_swap := Std.OrientedOrd.eq_swap

instance : Std.TransCmp order where
  isLE_trans := Std.TransOrd.isLE_trans

instance : Std.LawfulEqCmp order where
  compare_self := Std.ReflOrd.compare_self
  eq_of_compare h := units_inj (Std.LawfulEqOrd.eq_of_compare h)

/-- Either string may stand in front of the other one only if they are the same. -/
theorem order_antisymm {a b : String} (hab : (order a b).isLE) (hba : (order b a).isLE) : a = b :=
  Std.LawfulEqCmp.eq_of_compare (Std.OrientedCmp.isLE_antisymm hab hba)

/-! ### Sorted lists -/

/-- No item has a smaller name than one in front of it. -/
def Sorted (name : α → String) (items : List α) : Prop :=
  items.Pairwise fun left right => (order (name left) (name right)).isLE

theorem Sorted.place {name : α → String} {items : List α} (h : Sorted name items) (item : α) :
    Sorted name (place name item items) := by
  induction items with
  | nil => exact List.pairwise_singleton ..
  | cons head rest ih =>
      obtain ⟨hhead, hrest⟩ := List.pairwise_cons.mp h
      rw [Utf16.place]
      split
      · next hgt =>
          refine List.pairwise_cons.mpr ⟨fun other hother => ?_, ih hrest⟩
          rcases List.mem_cons.mp ((place_perm name item rest).mem_iff.mp hother) with rfl | hother
          · exact Ordering.isLE_of_eq_lt (Std.OrientedCmp.gt_iff_lt.mp hgt)
          · exact hhead other hother
      · next hle =>
          have hfirst : (order (name item) (name head)).isLE := Ordering.ne_gt_iff_isLE.mp hle
          refine List.pairwise_cons.mpr ⟨fun other hother => ?_, h⟩
          rcases List.mem_cons.mp hother with rfl | hother
          · exact hfirst
          · exact Std.TransCmp.isLE_trans hfirst (hhead other hother)

theorem sorted_sortBy (name : α → String) (items : List α) : Sorted name (sortBy name items) := by
  induction items with
  | nil => exact List.Pairwise.nil
  | cons item items ih => exact ih.place item

theorem mem_sort {name : String} {names : List String} : name ∈ sort names ↔ name ∈ names :=
  (sortBy_perm id names).mem_iff

/-- Sorting forgets how the strings were arranged, and nothing else. -/
theorem sort_eq_sort_iff {xs ys : List String} : sort xs = sort ys ↔ xs.Perm ys := by
  constructor
  · intro h
    calc List.Perm xs (sort xs) := (sortBy_perm id xs).symm
      _ = sort ys := h
      List.Perm _ ys := sortBy_perm id ys
  · intro h
    have hperm : (sort xs).Perm (sort ys) :=
      (sortBy_perm id xs).trans (h.trans (sortBy_perm id ys).symm)
    exact hperm.eq_of_pairwise (fun _ _ _ _ => order_antisymm) (sorted_sortBy id xs) (sorted_sortBy id ys)

end StampedPrograms.Utf16
