import Mathlib.Algebra.Group.Nat.Defs
import StampedPrograms.Proofs.Text.Utf16

/-!
Strings in the order of their UTF-8 bytes, which is the order of their characters' codes and the one in which
records hold their names. Two texts are the same, or one goes on where the other ends, or they part at two
characters; a code that writes characters in the order of a rank compares texts by the ranks of these two.
-/

namespace StampedPrograms

/-! ### Where texts part -/

/-- How two texts compare character by character. -/
inductive Parting : List Char → List Char → Prop where
  | same (cs : List Char) : Parting cs cs
  | shorter (cs : List Char) (d : Char) (ds : List Char) : Parting cs (cs ++ d :: ds)
  | longer (c : Char) (cs ds : List Char) : Parting (ds ++ c :: cs) ds
  | differ (before : List Char) {c d : Char} (ne : c ≠ d) (cs ds : List Char) :
      Parting (before ++ c :: cs) (before ++ d :: ds)

theorem Parting.cons {cs ds : List Char} (h : Parting cs ds) (first : Char) :
    Parting (first :: cs) (first :: ds) := by
  cases h with
  | same cs => exact .same (first :: cs)
  | shorter cs d ds => exact .shorter (first :: cs) d ds
  | longer c cs ds => exact .longer c cs (first :: ds)
  | differ before ne cs ds => exact .differ (first :: before) ne cs ds

theorem parting (cs ds : List Char) : Parting cs ds := by
  induction cs generalizing ds with
  | nil =>
      cases ds with
      | nil => exact .same []
      | cons d ds => exact .shorter [] d ds
  | cons c cs ih =>
      cases ds with
      | nil => exact .longer c cs []
      | cons d ds =>
          by_cases heq : c = d
          · rw [heq]
            exact (ih ds).cons d
          · exact .differ [] heq cs ds

/-- The first characters in which two strings differ. -/
def FirstDiffer (a b : String) (c d : Char) : Prop :=
  c ≠ d ∧ ∃ before cs ds, a.toList = before ++ c :: cs ∧ b.toList = before ++ d :: ds

theorem append_lt_append_iff (before cs ds : List Char) : before ++ cs < before ++ ds ↔ cs < ds := by
  induction before with
  | nil => rfl
  | cons first before ih =>
      rw [List.cons_append, List.cons_append, List.cons_lt_cons_iff, ih]
      exact or_iff_right (Char.lt_irrefl first) |>.trans (and_iff_right rfl)

/-! ### Codes -/

theorem compare_cons_of_lt {x y : Nat} (h : x < y) (us vs : List Nat) : compare (x :: us) (y :: vs) = .lt := by
  rw [List.compare_cons_cons, Nat.compare_eq_lt.mpr h]
  rfl

theorem compare_append_left (before us vs : List Nat) :
    compare (before ++ us) (before ++ vs) = compare us vs := by
  induction before with
  | nil => rfl
  | cons first before ih =>
      rw [List.cons_append, List.cons_append, List.compare_cons_cons, Std.ReflOrd.compare_self, ih]
      rfl

/-- A code that writes the character of smaller rank so that it comes first, whatever follows. -/
structure Ranked (encode : Char → List Nat) (rank : Char → Nat) : Prop where
  ne_nil : ∀ c, encode c ≠ []
  inj : ∀ {c d}, rank c = rank d → c = d
  lt : ∀ {c d}, rank c < rank d → ∀ us vs, compare (encode c ++ us) (encode d ++ vs) = .lt

namespace Ranked

variable {encode : Char → List Nat} {rank : Char → Nat} (h : Ranked encode rank)
include h

/-- The text that ends comes first. -/
theorem compare_shorter (cs : List Char) (d : Char) (ds : List Char) :
    compare (cs.flatMap encode) ((cs ++ d :: ds).flatMap encode) = .lt := by
  obtain ⟨u, us, hd⟩ := List.exists_cons_of_ne_nil (h.ne_nil d)
  rw [List.flatMap_append, List.flatMap_cons, hd]
  calc compare (cs.flatMap encode) (cs.flatMap encode ++ (u :: us ++ ds.flatMap encode))
      = compare (cs.flatMap encode ++ []) (cs.flatMap encode ++ (u :: us ++ ds.flatMap encode)) := by
        rw [List.append_nil]
    _ = compare [] (u :: us ++ ds.flatMap encode) := compare_append_left ..
    _ = .lt := rfl

theorem compare_longer (c : Char) (cs ds : List Char) :
    compare ((ds ++ c :: cs).flatMap encode) (ds.flatMap encode) = .gt := by
  rw [Std.OrientedOrd.eq_swap, h.compare_shorter]
  rfl

/-- What follows the first characters that differ is no matter. -/
theorem compare_differ (before : List Char) {c d : Char} (hne : c ≠ d) (cs ds : List Char) :
    compare ((before ++ c :: cs).flatMap encode) ((before ++ d :: ds).flatMap encode) =
      compare (rank c) (rank d) := by
  rw [List.flatMap_append, List.flatMap_append, compare_append_left, List.flatMap_cons, List.flatMap_cons]
  rcases Nat.lt_trichotomy (rank c) (rank d) with hlt | heq | hgt
  · rw [h.lt hlt, Nat.compare_eq_lt.mpr hlt]
  · exact absurd (h.inj heq) hne
  · rw [Std.OrientedOrd.eq_swap, h.lt hgt, Nat.compare_eq_gt.mpr hgt]
    rfl

end Ranked

/-! ### UTF-8 -/

namespace Utf8

/-- The bytes of a string, as numbers. -/
def bytes (s : String) : List Nat :=
  s.toByteArray.data.toList.map UInt8.toNat

/-- Compares byte by byte; a proper beginning comes first. -/
def order (a b : String) : Ordering :=
  compare (bytes a) (bytes b)

def bytesOfChar (c : Char) : List Nat :=
  (String.utf8EncodeChar c).map UInt8.toNat

theorem bytes_eq (s : String) : bytes s = s.toList.flatMap bytesOfChar := by
  rw [bytes, ← String.utf8Encode_toList, List.utf8Encode, List.data_toByteArray, List.toList_toArray,
    List.map_flatMap]
  rfl

/-- How many bytes follow the first one of a character with this code. -/
def following (code : Nat) : Nat :=
  if code < 0x80 then 0 else if code < 0x800 then 1 else if code < 0x10000 then 2 else 3

/-- The first byte says how many bytes follow it. -/
def lead : Nat → Nat
  | 0 => 0
  | 1 => 0xC0
  | 2 => 0xE0
  | _ => 0xF0

/-- A number in a first byte and so many bytes of six binary digits each behind it. -/
def sextets (lead : Nat) : Nat → Nat → List Nat
  | 0, n => [lead + n]
  | count + 1, n => sextets lead count (n / 0x40) ++ [0x80 + n % 0x40]

theorem following_cases (code : Nat) :
    code < 0x80 ∧ following code = 0 ∨ 0x80 ≤ code ∧ code < 0x800 ∧ following code = 1 ∨
      0x800 ≤ code ∧ code < 0x10000 ∧ following code = 2 ∨ 0x10000 ≤ code ∧ following code = 3 := by
  grind [following]

theorem bytesOfChar_eq (c : Char) :
    bytesOfChar c = sextets (lead (following c.toNat)) (following c.toNat) c.toNat := by
  have hcode := Utf16.code_cases c
  simp only [bytesOfChar, String.utf8EncodeChar, Char.toNat_val]
  generalize c.toNat = code at hcode ⊢
  rcases following_cases code with ⟨h, hcount⟩ | ⟨hlow, h, hcount⟩ | ⟨hlow, h, hcount⟩ | ⟨hlow, hcount⟩
  · rw [hcount, if_pos (by omega)]
    simp [sextets, lead, UInt8.toNat_ofNat']
    omega
  · rw [hcount, if_neg (by omega), if_pos (by omega)]
    simp [sextets, lead, UInt8.toNat_ofNat']
    omega
  · rw [hcount, if_neg (by omega), if_neg (by omega), if_pos (by omega)]
    simp [sextets, lead, UInt8.toNat_ofNat']
    omega
  · rw [hcount, if_neg (by omega), if_neg (by omega), if_neg (by omega)]
    simp [sextets, lead, UInt8.toNat_ofNat']
    omega

theorem exists_sextets (lead count n : Nat) :
    ∃ rest, sextets lead count n = (lead + n / 0x40 ^ count) :: rest := by
  induction count generalizing n with
  | zero => exact ⟨[], by rw [sextets, Nat.pow_zero, Nat.div_one]⟩
  | succ count ih =>
      obtain ⟨rest, hrest⟩ := ih (n / 0x40)
      refine ⟨rest ++ [0x80 + n % 0x40], ?_⟩
      rw [sextets, hrest, List.cons_append, Nat.div_div_eq_div_mul, Nat.pow_succ']

/-- As many bytes of two numbers compare as the numbers do. -/
theorem compare_sextets {m n : Nat} (h : m < n) (lead count : Nat) (us vs : List Nat) :
    compare (sextets lead count m ++ us) (sextets lead count n ++ vs) = .lt := by
  induction count generalizing m n us vs with
  | zero => exact compare_cons_of_lt (Nat.add_lt_add_left h lead) us vs
  | succ count ih =>
      rw [sextets, sextets, List.append_assoc, List.append_assoc]
      rcases Nat.lt_or_ge (m / 0x40) (n / 0x40) with hlt | hge
      · exact ih hlt _ _
      · have hhigh : n / 0x40 = m / 0x40 := by omega
        have hlow : 0x80 + m % 0x40 < 0x80 + n % 0x40 := by omega
        rw [hhigh, compare_append_left]
        exact compare_cons_of_lt hlow us vs

/-- The first byte of a character is above that of one with fewer bytes. -/
theorem first_lt {m n : Nat} (h : following m < following n) :
    lead (following m) + m / 0x40 ^ following m < lead (following n) + n / 0x40 ^ following n := by
  rcases following_cases m with ⟨hm, hcount⟩ | ⟨_, hm, hcount⟩ | ⟨_, hm, hcount⟩ | ⟨hm, hcount⟩ <;>
    rcases following_cases n with ⟨hn, hcount'⟩ | ⟨hn, _, hcount'⟩ | ⟨hn, _, hcount'⟩ | ⟨hn, hcount'⟩ <;>
    rw [hcount, hcount'] at h ⊢ <;> simp only [lead] <;> omega

theorem compare_bytesOfChar {c d : Char} (h : c.toNat < d.toNat) (us vs : List Nat) :
    compare (bytesOfChar c ++ us) (bytesOfChar d ++ vs) = .lt := by
  have hcount : following c.toNat ≤ following d.toNat := by
    have hc := following_cases c.toNat
    have hd := following_cases d.toNat
    omega
  rw [bytesOfChar_eq, bytesOfChar_eq]
  rcases Nat.lt_or_eq_of_le hcount with hlt | heq
  · obtain ⟨rest, hc⟩ := exists_sextets (lead (following c.toNat)) (following c.toNat) c.toNat
    obtain ⟨rest', hd⟩ := exists_sextets (lead (following d.toNat)) (following d.toNat) d.toNat
    rw [hc, hd]
    exact compare_cons_of_lt (first_lt hlt) _ _
  · rw [heq]
    exact compare_sextets h _ _ us vs

theorem ranked : Ranked bytesOfChar Char.toNat where
  ne_nil _ h := String.utf8EncodeChar_ne_nil (List.map_eq_nil_iff.mp h)
  inj h := Char.toNat_inj.mp h
  lt h us vs := compare_bytesOfChar h us vs

/-- Two strings whose first different characters are these compare as the codes of the characters. -/
theorem order_eq_code {a b : String} {c d : Char} (h : FirstDiffer a b c d) :
    order a b = compare c.toNat d.toNat := by
  obtain ⟨hne, before, cs, ds, ha, hb⟩ := h
  rw [order, bytes_eq, bytes_eq, ha, hb, ranked.compare_differ before hne]

/-- Records hold their names in the order of their bytes. -/
theorem order_eq_lt_iff {a b : String} : order a b = .lt ↔ a < b := by
  have hparting := parting a.toList b.toList
  rw [order, bytes_eq, bytes_eq, String.lt_iff]
  generalize a.toList = cs, b.toList = ds at hparting
  cases hparting with
  | same cs =>
      rw [Std.ReflOrd.compare_self]
      exact iff_of_false (by rintro ⟨⟩) (List.lt_irrefl cs)
  | shorter cs d ds =>
      have hends : cs ++ [] < cs ++ d :: ds := (append_lt_append_iff cs [] (d :: ds)).mpr (List.nil_lt_cons d ds)
      rw [List.append_nil] at hends
      exact iff_of_true (ranked.compare_shorter cs d ds) hends
  | longer c cs ds =>
      have hends : ds ++ [] < ds ++ c :: cs := (append_lt_append_iff ds [] (c :: cs)).mpr (List.nil_lt_cons c cs)
      rw [List.append_nil] at hends
      rw [ranked.compare_longer]
      exact iff_of_false (by rintro ⟨⟩) (List.lt_asymm hends)
  | @differ before c d ne cs ds =>
      rw [ranked.compare_differ before ne, Nat.compare_eq_lt, append_lt_append_iff, List.cons_lt_cons_iff,
        or_iff_left fun h => ne h.1]
      rfl

end Utf8

end StampedPrograms
