import StampedPrograms.Text.Quoted
import StampedPrograms.Json.Reader

/-!
Quoted text reads back: the reader of JSON strings undoes every escape, so a quoted string tells where
it ends and what it stands for.
-/

namespace StampedPrograms.Quoted

/-- An escaped control character reads back, whichever it is. -/
theorem number?_digits_control : ∀ code < 0x20, Hex.number? (Hex.digits 4 code) = some code := by
  decide

theorem unescape?_control {c : Char} (h : c.toNat < 0x20) (rest : List Char) :
    Json.unescape? ('u' :: Hex.digits 4 c.toNat ++ rest) = some (c, rest) := by
  have hnumber := number?_digits_control c.toNat h
  have hplain : ¬ (0xD800 ≤ c.toNat ∧ c.toNat < 0xDC00) := by omega
  have hcode : Json.code4? (Hex.digits 4 c.toNat ++ rest) = some (c.toNat, rest) := by
    simp only [Hex.digits, List.nil_append, List.cons_append] at hnumber ⊢
    simp [Json.code4?, hnumber]
  have hguard : guard (¬ (0xDC00 ≤ c.toNat ∧ c.toNat < 0xE000)) = some () := if_pos (by omega)
  show (Json.code4? (Hex.digits 4 c.toNat ++ rest) >>= _) = _
  rw [hcode]
  show (if 0xD800 ≤ c.toNat ∧ c.toNat < 0xDC00 then _ else _) = _
  rw [if_neg hplain, hguard, Char.ofNat_toNat]
  rfl

/-- A character stands for itself, or as an escape that the reader undoes. -/
theorem jsonChar_cases (c : Char) :
    (jsonChar c = [c] ∧ c ≠ '"' ∧ c ≠ '\\' ∧ ¬ c.toNat < 0x20) ∨
      ∃ escape, jsonChar c = '\\' :: escape ∧
        ∀ rest, Json.unescape? (escape ++ rest) = some (c, rest) := by
  by_cases hquote : c = '"'
  · subst hquote
    exact .inr ⟨['"'], rfl, fun _ => rfl⟩
  by_cases hslash : c = '\\'
  · subst hslash
    exact .inr ⟨['\\'], rfl, fun _ => rfl⟩
  by_cases hcontrol : c.toNat < 0x20
  · right
    unfold jsonChar
    rw [if_neg hquote, if_neg hslash]
    split
    · next h => exact ⟨['b'], rfl, fun _ => h ▸ rfl⟩
    split
    · next h => exact ⟨['f'], rfl, fun _ => h ▸ rfl⟩
    split
    · next h => exact ⟨['n'], rfl, fun _ => h ▸ rfl⟩
    split
    · next h => exact ⟨['r'], rfl, fun _ => h ▸ rfl⟩
    split
    · next h => exact ⟨['t'], rfl, fun _ => h ▸ rfl⟩
    · exact ⟨_, rfl, unescape?_control hcontrol⟩
  · left
    refine ⟨?_, hquote, hslash, hcontrol⟩
    have hne {d : Char} (hd : d.toNat < 0x20) : c ≠ d := fun h => hcontrol (h ▸ hd)
    simp [jsonChar, hquote, hslash, hcontrol, hne]

theorem readString?_flatMap (cs : List Char) {fuel : Nat} (hfuel : cs.length < fuel)
    (done rest : List Char) :
    Json.readString? fuel done (cs.flatMap jsonChar ++ '"' :: rest) =
      some (String.ofList (done.reverse ++ cs), rest) := by
  induction cs generalizing fuel done with
  | nil =>
      obtain ⟨fuel, rfl⟩ := Nat.exists_eq_succ_of_ne_zero (Nat.ne_of_gt hfuel)
      simp [Json.readString?]
  | cons c cs ih =>
      obtain ⟨fuel, rfl⟩ := Nat.exists_eq_succ_of_ne_zero (Nat.ne_of_gt (Nat.zero_lt_of_lt hfuel))
      have hread := ih (Nat.lt_of_succ_lt_succ hfuel) (c :: done)
      rw [List.reverse_cons, List.append_assoc, List.singleton_append] at hread
      rw [List.flatMap_cons, List.append_assoc]
      rcases jsonChar_cases c with ⟨hself, hquote, hslash, hcontrol⟩ | ⟨escape, hescape, hundo⟩
      · rw [hself, List.singleton_append, Nat.succ_eq_add_one, Json.readString?, if_neg hcontrol, hread]
        · exact hquote
        · exact hslash
      · rw [hescape, List.cons_append, Nat.succ_eq_add_one, Json.readString?, hundo]
        exact hread

/-- A quoted string determines its text and what follows it. -/
theorem json_append_inj {s t : String} {rest rest' : List Char}
    (h : json s ++ rest = json t ++ rest') : s = t ∧ rest = rest' := by
  simp only [json, List.cons_append, List.append_assoc, List.nil_append, List.cons.injEq,
    true_and] at h
  have hs := readString?_flatMap s.toList (Nat.lt_succ_of_le (Nat.le_max_left _ t.toList.length)) [] rest
  have ht := readString?_flatMap t.toList (Nat.lt_succ_of_le (Nat.le_max_right s.toList.length _)) [] rest'
  rw [h, ht] at hs
  simpa using hs.symm

end StampedPrograms.Quoted
