import StampedPrograms.Proofs.Text.Utf8

/-!
The order of code units against the order of bytes. Surrogates lie below U+E000, so a character beyond the basic
plane comes before the last characters in it. Where two strings first differ in two such characters the orders are
opposite, and nowhere else do they differ. Sorting by code units brings a list into the one order it can have.
-/

namespace StampedPrograms.Utf16

/-! ### Ranks -/

/-- The place of a character in the order of code units: those from U+E000 to the end of the basic plane come last.
-/
def rank (c : Char) : Nat :=
  if 0xE000 ≤ c.toNat ∧ c.toNat < 0x10000 then 0x110000 + c.toNat else c.toNat

/-- One character is beyond the basic plane, and the other one is behind the surrogates in it. -/
def Crossed (c d : Char) : Prop :=
  0x10000 ≤ c.toNat ∧ 0xE000 ≤ d.toNat ∧ d.toNat < 0x10000 ∨
    0x10000 ≤ d.toNat ∧ 0xE000 ≤ c.toNat ∧ c.toNat < 0x10000

theorem rank_cases (c : Char) :
    c.toNat < 0xD800 ∧ rank c = c.toNat ∨
      0xE000 ≤ c.toNat ∧ c.toNat < 0x10000 ∧ rank c = 0x110000 + c.toNat ∨
      0x10000 ≤ c.toNat ∧ c.toNat < 0x110000 ∧ rank c = c.toNat := by
  have hcode := code_cases c
  grind [rank]

/-- Pairs of surrogates compare as what is behind the basic plane. -/
theorem compare_surrogates {m n : Nat} (h : m < n) (us vs : List Nat) :
    compare ((0xD800 + m / 0x400) :: (0xDC00 + m % 0x400) :: us)
      ((0xD800 + n / 0x400) :: (0xDC00 + n % 0x400) :: vs) = .lt := by
  rcases Nat.lt_or_ge (m / 0x400) (n / 0x400) with hhigh | hhigh
  · exact compare_cons_of_lt (Nat.add_lt_add_left hhigh 0xD800) _ _
  · have hsame : n / 0x400 = m / 0x400 := by omega
    have hlow : 0xDC00 + m % 0x400 < 0xDC00 + n % 0x400 := by omega
    rw [hsame, List.compare_cons_cons, Std.ReflOrd.compare_self, compare_cons_of_lt hlow]
    rfl

theorem compare_unitsOfChar {c d : Char} (h : rank c < rank d) (us vs : List Nat) :
    compare (unitsOfChar c ++ us) (unitsOfChar d ++ vs) = .lt := by
  have hc := rank_cases c
  have hd := rank_cases d
  unfold unitsOfChar
  dsimp only
  split <;> split
  · next hbasic hbasic' => exact compare_cons_of_lt (by omega) us vs
  · next hbasic hbeyond => exact compare_cons_of_lt (by omega) us _
  · next hbeyond hbasic => exact compare_cons_of_lt (by omega) _ vs
  · next hbeyond hbeyond' => exact compare_surrogates (by omega) us vs

theorem ranked : Ranked unitsOfChar rank where
  ne_nil c := by
    rw [unitsOfChar]
    split <;> simp
  inj {c d} h := by
    have hc := rank_cases c
    have hd := rank_cases d
    exact Char.toNat_inj.mp (by omega)
  lt h us vs := compare_unitsOfChar h us vs

/-- Ranks compare as codes do, but for two characters that are crossed. -/
theorem compare_rank {c d : Char} (h : ¬ Crossed c d) : compare (rank c) (rank d) = compare c.toNat d.toNat := by
  have hc := rank_cases c
  have hd := rank_cases d
  unfold Crossed at h
  rcases Nat.lt_trichotomy c.toNat d.toNat with hlt | heq | hgt
  · rw [Nat.compare_eq_lt.mpr hlt, Nat.compare_eq_lt]
    omega
  · rw [Nat.compare_eq_eq.mpr heq, Nat.compare_eq_eq]
    omega
  · rw [Nat.compare_eq_gt.mpr hgt, Nat.compare_eq_gt]
    omega

/-- Crossed characters rank the other way round. -/
theorem compare_rank_of_crossed {c d : Char} (h : Crossed c d) :
    compare (rank c) (rank d) = (compare c.toNat d.toNat).swap ∧
      compare (rank c) (rank d) ≠ compare c.toNat d.toNat := by
  have hc := rank_cases c
  have hd := rank_cases d
  rcases h with ⟨hbeyond, hbehind, hbasic⟩ | ⟨hbeyond, hbehind, hbasic⟩
  · have hrank : compare (rank c) (rank d) = .lt := Nat.compare_eq_lt.mpr (by omega)
    have hcode : compare c.toNat d.toNat = .gt := Nat.compare_eq_gt.mpr (by omega)
    rw [hrank, hcode]
    exact ⟨rfl, by rintro ⟨⟩⟩
  · have hrank : compare (rank c) (rank d) = .gt := Nat.compare_eq_gt.mpr (by omega)
    have hcode : compare c.toNat d.toNat = .lt := Nat.compare_eq_lt.mpr (by omega)
    rw [hrank, hcode]
    exact ⟨rfl, by rintro ⟨⟩⟩

/-! ### The two orders -/

/-- Two strings whose first different characters are these compare as the characters rank. -/
theorem order_eq_rank {a b : String} {c d : Char} (h : FirstDiffer a b c d) :
    order a b = compare (rank c) (rank d) := by
  obtain ⟨hne, before, cs, ds, ha, hb⟩ := h
  rw [order, units, units, ha, hb, ranked.compare_differ before hne]

/-- The orders agree on two strings, or these first differ in two characters. -/
theorem order_eq_or_firstDiffer (a b : String) : order a b = Utf8.order a b ∨ ∃ c d, FirstDiffer a b c d := by
  have hparting := parting a.toList b.toList
  rw [order, units, units, Utf8.order, Utf8.bytes_eq, Utf8.bytes_eq]
  unfold FirstDiffer
  generalize a.toList = cs, b.toList = ds at hparting
  cases hparting with
  | same cs => rw [Std.ReflOrd.compare_self, Std.ReflOrd.compare_self]; exact .inl rfl
  | shorter cs d ds => exact .inl ((ranked.compare_shorter cs d ds).trans (Utf8.ranked.compare_shorter cs d ds).symm)
  | longer c cs ds => exact .inl ((ranked.compare_longer c cs ds).trans (Utf8.ranked.compare_longer c cs ds).symm)
  | @differ before c d ne cs ds => exact .inr ⟨c, d, ne, before, cs, ds, rfl, rfl⟩

/-- The orders agree on two strings exactly if the first characters in which these differ are not crossed. -/
theorem order_eq_order_iff {a b : String} :
    order a b = Utf8.order a b ↔ ∀ c d, FirstDiffer a b c d → ¬ Crossed c d := by
  constructor
  · intro heq c d hdiffer hcrossed
    rw [order_eq_rank hdiffer, Utf8.order_eq_code hdiffer] at heq
    exact (compare_rank_of_crossed hcrossed).2 heq
  · intro h
    rcases order_eq_or_firstDiffer a b with heq | ⟨c, d, hdiffer⟩
    · exact heq
    · rw [order_eq_rank hdiffer, Utf8.order_eq_code hdiffer, compare_rank (h c d hdiffer)]

theorem order_eq_swap {a b : String} (h : order a b ≠ Utf8.order a b) : order a b = (Utf8.order a b).swap := by
  rcases order_eq_or_firstDiffer a b with heq | ⟨c, d, hdiffer⟩
  · exact absurd heq h
  · rw [order_eq_rank hdiffer, Utf8.order_eq_code hdiffer] at h ⊢
    by_cases hcrossed : Crossed c d
    · exact (compare_rank_of_crossed hcrossed).1
    · exact absurd (compare_rank hcrossed) h

/-! ### Sorting -/

/-- There is one arrangement of a list of strings in which none stands behind a greater one. -/
theorem eq_sort_iff {xs ys : List String} : ys = sort xs ↔ ys.Perm xs ∧ Sorted id ys := by
  constructor
  · rintro rfl
    exact ⟨sortBy_perm id xs, sorted_sortBy id xs⟩
  · rintro ⟨hperm, hsorted⟩
    have hsame : ys.Perm (sort xs) := hperm.trans (sortBy_perm id xs).symm
    exact hsame.eq_of_pairwise (fun _ _ _ _ => order_antisymm) hsorted (sorted_sortBy id xs)

/-- Comparing code units is a total order of strings. It is the order of the bytes, in which records hold their names,
but where the first different characters of two strings are crossed, and there it is the reverse. A list sorts to
its one arrangement in this order, and so does every permutation of it. -/
theorem order_exact :
    (∀ a b, order a b = .eq ↔ a = b) ∧
    (∀ a b, order b a = (order a b).swap) ∧
    (∀ a b c, (order a b).isLE → (order b c).isLE → (order a c).isLE) ∧
    (∀ a b, Utf8.order a b = .lt ↔ a < b) ∧
    (∀ a b, order a b ≠ Utf8.order a b ↔ ∃ c d, FirstDiffer a b c d ∧ Crossed c d) ∧
    (∀ a b, order a b ≠ Utf8.order a b → order a b = (Utf8.order a b).swap) ∧
    (∀ xs ys, ys = sort xs ↔ ys.Perm xs ∧ Sorted id ys) ∧
    ∀ xs ys : List String, xs.Perm ys → sort xs = sort ys := by
  refine ⟨fun a b => Std.LawfulEqCmp.compare_eq_iff_eq, fun a b => Std.OrientedCmp.eq_swap,
    fun a b c => Std.TransCmp.isLE_trans, fun a b => Utf8.order_eq_lt_iff, fun a b => ?_,
    fun a b => order_eq_swap, fun xs ys => eq_sort_iff, fun xs ys => sort_eq_sort_iff.mpr⟩
  rw [Ne, order_eq_order_iff]
  simp

/-- A face and a fullwidth letter, which stand in one order by units and in the other one by bytes. -/
theorem order_exact_face :
    order "a😀" "aＡ" = .lt ∧ Utf8.order "a😀" "aＡ" = .gt ∧
    (∃ c d, FirstDiffer "a😀" "aＡ" c d ∧ Crossed c d) ∧
    (order "a" "a😀").isLE ∧ (order "a😀" "aＡ").isLE ∧ (order "a" "aＡ").isLE ∧
    ["aＡ", "a", "a😀"].Perm ["a😀", "aＡ", "a"] ∧
    sort ["aＡ", "a", "a😀"] = sort ["a😀", "aＡ", "a"] := by
  obtain ⟨-, -, htrans, -, hdiffer, hswap, -, hsort⟩ := order_exact
  have hfirst : (order "a" "a😀").isLE := by decide +kernel
  have hsecond : (order "a😀" "aＡ").isLE := by decide +kernel
  have hapart : order "a😀" "aＡ" ≠ Utf8.order "a😀" "aＡ" := by decide +kernel
  have hbytes : Utf8.order "a😀" "aＡ" = .gt := by decide +kernel
  have hperm : ["aＡ", "a", "a😀"].Perm ["a😀", "aＡ", "a"] := by decide
  have hunits := hswap _ _ hapart
  rw [hbytes] at hunits
  exact ⟨hunits, hbytes, (hdiffer _ _).mp hapart, hfirst, hsecond, htrans _ _ _ hfirst hsecond, hperm,
    hsort _ _ hperm⟩

end StampedPrograms.Utf16
