import StampedPrograms.Value.Encoding
import StampedPrograms.Proofs.Binary64.TextReading
import StampedPrograms.Proofs.Text.Quoted
import StampedPrograms.Proofs.Text.Utf16
import StampedPrograms.Proofs.Value.Canonical

/-!
Canonical text determines the value. The text of a value tells where it ends: its first character
gives the kind, strings and lists close themselves, and a number goes on as long as there are
characters of numbers. So lists and maps can be read item by item, and a map, which is written in the
order of code units, is recovered from its entries because they have only one ascending order.
-/

namespace StampedPrograms.Value

/-- The kind that the first character of a text announces. -/
def announced (c : Char) : Kind :=
  if c = 'n' then .null
  else if c = 't' ∨ c = 'f' then .bool
  else if c = '"' then .string
  else if c = '[' then .list
  else if c = '\x7b' then .map
  else .number

/-- What follows a value: nothing that would continue a number. -/
def Ends (rest : List Char) : Prop :=
  ∀ c ∈ rest.head?, Decimal.isNumberChar c = false

theorem ends_cons {c : Char} (h : Decimal.isNumberChar c = false) (rest : List Char) : Ends (c :: rest) := by
  intro d hd
  rw [List.head?_cons, Option.mem_some_iff] at hd
  rwa [← hd]

theorem announced_of_isNumberChar {c : Char} (h : Decimal.isNumberChar c = true) :
    announced c = .number := by
  have hne (d : Char) (hd : Decimal.isNumberChar d = false) : c ≠ d := by
    rintro rfl
    rw [h] at hd
    cases hd
  simp only [announced, hne 'n' rfl, hne 't' rfl, hne 'f' rfl, hne '"' rfl, hne '[' rfl,
    hne '\x7b' rfl, or_self, if_false]

theorem announced_head {v : Value} (hv : Canonical v) :
    ∃ c rest, v.encode = c :: rest ∧ announced c = v.kind ∧
      (v.kind = .number → Decimal.isNumberChar c = true) := by
  cases hv with
  | null => exact ⟨'n', _, rfl, rfl, by simp [kind]⟩
  | bool b =>
      cases b with
      | true => exact ⟨'t', _, rfl, rfl, by simp [kind]⟩
      | false => exact ⟨'f', _, rfl, rfl, by simp [kind]⟩
  | @number x finite unsigned =>
      rw [encode, Binary64.canonicalText_eq finite]
      have hchars := x.isNumberChar_of_mem_canonicalDigits
      cases hdigits : x.canonicalDigits with
      | nil => exact absurd hdigits x.canonicalDigits_ne_nil
      | cons c cs =>
          rw [hdigits] at hchars
          have hc := hchars c (List.mem_cons_self ..)
          exact ⟨c, cs, rfl, announced_of_isNumberChar hc, fun _ => hc⟩
  | string s => exact ⟨'"', _, rfl, rfl, by simp [kind]⟩
  | list => exact ⟨'[', _, rfl, rfl, by simp [kind]⟩
  | map => exact ⟨'\x7b', _, rfl, rfl, by simp [kind]⟩

theorem kind_eq_of_encode_append {v w : Value} (hv : Canonical v) (hw : Canonical w)
    {rest rest' : List Char} (h : v.encode ++ rest = w.encode ++ rest') : v.kind = w.kind := by
  obtain ⟨c, cs, hc, hvkind, -⟩ := announced_head hv
  obtain ⟨d, ds, hd, hwkind, -⟩ := announced_head hw
  rw [hc, hd] at h
  rw [← hvkind, ← hwkind, (List.cons.inj h).1]

/-- No value begins with a character that neither announces a kind nor stands in numbers. -/
theorem encode_append_ne_cons {v : Value} (hv : Canonical v) {c : Char}
    (hc : announced c = .number) (hnumber : Decimal.isNumberChar c = false)
    (rest rest' : List Char) : v.encode ++ rest ≠ c :: rest' := by
  intro h
  obtain ⟨d, ds, hd, hkind, hdigit⟩ := announced_head hv
  rw [hd] at h
  have hdc : d = c := (List.cons.inj h).1
  rw [hdc] at hkind hdigit
  rw [hdigit (hkind.symm.trans hc)] at hnumber
  cases hnumber

/-! ### Numbers -/

theorem takeWhile_canonicalDigits (x : Binary64) {rest : List Char} (h : Ends rest) :
    (x.canonicalDigits ++ rest).takeWhile Decimal.isNumberChar = x.canonicalDigits := by
  rw [List.takeWhile_append_of_pos x.isNumberChar_of_mem_canonicalDigits]
  cases rest with
  | nil => simp
  | cons c cs => simp [h c rfl]

theorem canonicalDigits_append_inj {x y : Binary64} (hx : Canonical (.number x))
    (hy : Canonical (.number y)) {rest rest' : List Char} (hrest : Ends rest) (hrest' : Ends rest')
    (h : x.canonicalDigits ++ rest = y.canonicalDigits ++ rest') : x = y ∧ rest = rest' := by
  have hdigits : x.canonicalDigits = y.canonicalDigits := by
    rw [← takeWhile_canonicalDigits x hrest, h, takeWhile_canonicalDigits y hrest']
  rw [hdigits] at h
  cases hx with
  | number finite unsigned =>
      cases hy with
      | number finite' unsigned' =>
          refine ⟨?_, List.append_cancel_left h⟩
          rw [← unsigned, ← unsigned', ← Binary64.ofText_canonicalDigits finite,
            ← Binary64.ofText_canonicalDigits finite', hdigits]

/-! ### Items between separators -/

section Separated

variable {α : Type} {f : α → List Char} {good : α → Prop} {close : Char}

/-- What an item of a list is followed by: the closing bracket, or a comma and the other items. -/
def afterItem (f : α → List Char) (close : Char) (items : List α) (rest : List Char) : List Char :=
  match items with
  | [] => close :: rest
  | item :: items => ',' :: (List.intercalate [','] ((item :: items).map f) ++ close :: rest)

theorem intercalate_cons_append (item : α) (items : List α) (rest : List Char) :
    List.intercalate [','] ((item :: items).map f) ++ close :: rest =
      f item ++ afterItem f close items rest := by
  cases items with
  | nil => simp [afterItem]
  | cons next items => simp [afterItem, List.intercalate_cons_cons]

theorem ends_afterItem (hclose : Decimal.isNumberChar close = false) (items : List α)
    (rest : List Char) : Ends (afterItem f close items rest) := by
  cases items with
  | nil => exact ends_cons hclose rest
  | cons => exact ends_cons (by decide) _

/-- Items that can be told from what follows them make up a list that can be told from what follows
it. -/
theorem intercalate_append_inj (hclose : Decimal.isNumberChar close = false) (hcomma : close ≠ ',')
    (hstart : ∀ item, good item → ∀ rest rest', f item ++ rest ≠ close :: rest')
    {items others : List α} (hitems : ∀ item ∈ items, good item) (hothers : ∀ item ∈ others, good item)
    (hread : ∀ item ∈ items, ∀ other, good other → ∀ rest rest', Ends rest → Ends rest' →
      f item ++ rest = f other ++ rest' → item = other ∧ rest = rest')
    {rest rest' : List Char}
    (h : List.intercalate [','] (items.map f) ++ close :: rest =
      List.intercalate [','] (others.map f) ++ close :: rest') :
    items = others ∧ rest = rest' := by
  induction items generalizing others with
  | nil =>
      cases others with
      | nil => simpa using h
      | cons other others =>
          rw [intercalate_cons_append] at h
          exact absurd h.symm (hstart other (hothers other (List.mem_cons_self ..)) _ _)
  | cons item items ih =>
      cases others with
      | nil =>
          rw [intercalate_cons_append] at h
          exact absurd h (hstart item (hitems item (List.mem_cons_self ..)) _ _)
      | cons other others =>
          rw [intercalate_cons_append, intercalate_cons_append] at h
          obtain ⟨rfl, htail⟩ := hread item (List.mem_cons_self ..) other
            (hothers other (List.mem_cons_self ..)) _ _ (ends_afterItem hclose _ _)
            (ends_afterItem hclose _ _) h
          cases items with
          | nil =>
              cases others with
              | nil => simpa [afterItem] using htail
              | cons => exact absurd (List.cons.inj htail).1 hcomma
          | cons next items =>
              cases others with
              | nil => exact absurd (List.cons.inj htail).1.symm hcomma
              | cons next' others =>
                  obtain ⟨hlist, hrest⟩ := ih (fun i hi => hitems i (List.mem_cons_of_mem _ hi))
                    (fun i hi => hothers i (List.mem_cons_of_mem _ hi))
                    (fun i hi => hread i (List.mem_cons_of_mem _ hi)) (List.cons.inj htail).2
                  exact ⟨by rw [hlist], hrest⟩

end Separated

/-! ### Lists and maps -/

theorem encodeItems_eq_map (items : List Value) : encodeItems items = items.map encode := by
  induction items with
  | nil => rfl
  | cons item items ih => rw [encodeItems, ih, List.map_cons]

/-- The text of an entry of a map. -/
def entryEncoding (entry : String × Value) : List Char :=
  entryText (entry.1, entry.2.encode)

theorem encodeEntries_eq_map (entries : List (String × Value)) :
    encodeEntries entries = entries.map fun entry => (entry.1, entry.2.encode) := by
  induction entries with
  | nil => rfl
  | cons entry entries ih => rw [encodeEntries, ih, List.map_cons]

theorem encode_list (items : List Value) (rest : List Char) :
    (list items).encode ++ rest = '[' :: (List.intercalate [','] (items.map encode) ++ ']' :: rest) := by
  rw [encode, encodeItems_eq_map]
  simp

/-- A map is the list of its entries in the order of the code units of their names. -/
theorem encode_map (entries : List (String × Value)) (rest : List Char) :
    (map entries).encode ++ rest =
      '\x7b' :: (List.intercalate [','] ((Utf16.sortBy Prod.fst entries).map entryEncoding) ++
        '\x7d' :: rest) := by
  have hsort : Utf16.sortBy Prod.fst (entries.map fun entry => (entry.1, entry.2.encode)) =
      (Utf16.sortBy Prod.fst entries).map fun entry => (entry.1, entry.2.encode) :=
    Utf16.sortBy_map Prod.fst (fun entry : String × Value => (entry.1, entry.2.encode)) entries
  rw [encode, encodeEntries_eq_map, hsort, List.map_map]
  simp only [List.cons_append, List.append_assoc, List.nil_append]
  rfl

theorem entryEncoding_ne_cons (entry : String × Value) (rest rest' : List Char) :
    entryEncoding entry ++ rest ≠ '\x7d' :: rest' := by
  simp [entryEncoding, entryText, Quoted.json]

theorem entryEncoding_append_inj {entry other : String × Value}
    (hread : ∀ rest rest', Ends rest → Ends rest' →
      entry.2.encode ++ rest = other.2.encode ++ rest' → entry.2 = other.2 ∧ rest = rest')
    {rest rest' : List Char} (hrest : Ends rest) (hrest' : Ends rest')
    (h : entryEncoding entry ++ rest = entryEncoding other ++ rest') :
    entry = other ∧ rest = rest' := by
  simp only [entryEncoding, entryText, List.append_assoc, List.cons_append] at h
  obtain ⟨hname, hitem⟩ := Quoted.json_append_inj h
  obtain ⟨hvalue, htail⟩ := hread rest rest' hrest hrest' (List.cons.inj hitem).2
  exact ⟨Prod.ext hname hvalue, htail⟩

/-- Values can be told apart and told from what follows them. -/
theorem encode_append_inj {v w : Value} (hv : Canonical v) (hw : Canonical w)
    {rest rest' : List Char} (hrest : Ends rest) (hrest' : Ends rest')
    (h : v.encode ++ rest = w.encode ++ rest') : v = w ∧ rest = rest' := by
  have hkind := kind_eq_of_encode_append hv hw h
  induction hv generalizing w rest rest' with
  | null =>
      cases w with
      | null => exact ⟨rfl, List.append_cancel_left h⟩
      | _ => cases hkind
  | bool b =>
      cases w with
      | bool c => cases b <;> cases c <;> simp [encode] at h ⊢ <;> exact h
      | _ => cases hkind
  | number finite unsigned =>
      cases w with
      | number y =>
          rw [encode, encode, Binary64.canonicalText_eq finite,
            Binary64.canonicalText_eq (by cases hw; assumption)] at h
          obtain ⟨rfl, htail⟩ := canonicalDigits_append_inj (.number finite unsigned) hw hrest hrest' h
          exact ⟨rfl, htail⟩
      | _ => cases hkind
  | string s =>
      cases w with
      | string t =>
          obtain ⟨rfl, htail⟩ := Quoted.json_append_inj h
          exact ⟨rfl, htail⟩
      | _ => cases hkind
  | @list items hitems ih =>
      cases w with
      | list others =>
          rw [encode_list, encode_list] at h
          have hstart (v : Value) (hv : Canonical v) (rest rest' : List Char) :
              v.encode ++ rest ≠ ']' :: rest' := encode_append_ne_cons hv rfl rfl rest rest'
          have hread (item : Value) (hitem : item ∈ items) (other : Value) (hother : Canonical other)
              (rest rest' : List Char) (hrest : Ends rest) (hrest' : Ends rest')
              (h : item.encode ++ rest = other.encode ++ rest') : item = other ∧ rest = rest' :=
            ih item hitem hother hrest hrest' h
              (kind_eq_of_encode_append (hitems item hitem) hother h)
          obtain ⟨rfl, htail⟩ := intercalate_append_inj rfl (by decide) hstart hitems
            hw.of_mem_list hread (List.cons.inj h).2
          exact ⟨rfl, htail⟩
      | _ => cases hkind
  | @map entries hascending hentries ih =>
      cases w with
      | map others =>
          rw [encode_map, encode_map] at h
          have hsorted := Utf16.sortBy_perm Prod.fst entries
          have hsorted' := Utf16.sortBy_perm Prod.fst others
          have hread (entry : String × Value) (hentry : entry ∈ Utf16.sortBy Prod.fst entries)
              (other : String × Value) (hother : Canonical other.2) (rest rest' : List Char)
              (hrest : Ends rest) (hrest' : Ends rest')
              (h : entryEncoding entry ++ rest = entryEncoding other ++ rest') :
              entry = other ∧ rest = rest' := by
            have hmem := hsorted.mem_iff.mp hentry
            refine entryEncoding_append_inj (fun rest rest' hrest hrest' h => ?_) hrest hrest' h
            exact ih entry hmem hother hrest hrest' h
              (kind_eq_of_encode_append (hentries entry hmem) hother h)
          obtain ⟨hsame, htail⟩ := intercalate_append_inj rfl (by decide)
            (fun entry _ => entryEncoding_ne_cons entry)
            (fun entry hentry => hentries entry (hsorted.mem_iff.mp hentry))
            (fun entry hentry => hw.of_mem_map entry (hsorted'.mem_iff.mp hentry))
            hread (List.cons.inj h).2
          have hperm : entries.Perm others := (hsame ▸ hsorted.symm).trans hsorted'
          exact ⟨by rw [hascending.eq_of_perm hw.ascending hperm], htail⟩
      | _ => cases hkind

theorem eq_of_encode_eq {v w : Value} (hv : Canonical v) (hw : Canonical w) (h : v.encode = w.encode) :
    v = w := by
  have hencode : v.encode ++ [] = w.encode ++ [] := congrArg (· ++ []) h
  exact (encode_append_inj hv hw (fun _ hc => by cases hc) (fun _ hc => by cases hc) hencode).1

/-- Different canonical values never share their text. -/
theorem eq_of_text_eq {v w : Value} (hv : Canonical v) (hw : Canonical w) (h : v.text = w.text) :
    v = w := by
  have hencode : v.encode ++ [] = w.encode ++ [] := by
    rw [List.append_nil, List.append_nil]
    exact String.ofList_injective h
  exact (encode_append_inj hv hw (fun _ hc => by cases hc) (fun _ hc => by cases hc) hencode).1

/-- Members in another order, an integer and a double that are both zero, and a name beyond the first
plane, which comes first in the text and last in the map. -/
theorem eq_of_text_eq_zeros :
    ofJson (.ofPairs [("\uffff", .number (.int 0 (by decide))), ("😀", .string "\"\\\n")]) =
      ofJson (.ofPairs [("😀", .string "\"\\\n"),
        ("\uffff", .number (.float (Binary64.signedZero true) (by decide)))]) :=
  eq_of_text_eq (canonical_ofJson _) (canonical_ofJson _) (by decide +kernel)

end StampedPrograms.Value
