import Mathlib.Data.List.Basic
import StampedPrograms.Json.Printer
import StampedPrograms.Proofs.Binary64.TextReading
import StampedPrograms.Proofs.Decimal.Value
import StampedPrograms.Proofs.Entries
import StampedPrograms.Proofs.Text.Quoted
import StampedPrograms.Proofs.Text.Runs

/-!
The text of a document is read back as the document, if all its numbers are integers and all its objects list
their members in order. The text is cut into the lexemes of the document, and these build it wherever it belongs.
-/

namespace StampedPrograms.Json

/-- All numbers are integers, and all objects list their members in order. -/
inductive Plain : Json → Prop where
  | null : Plain .null
  | bool (b : Bool) : Plain (.bool b)
  | int (i : Int) (fits : Fits64 i) : Plain (.number (.int i fits))
  | string (s : String) : Plain (.string s)
  | array {items : List Json} (plain : ∀ item ∈ items, Plain item) : Plain (.array items)
  | object {members : List (String × Json)} (ascending : Entries.Ascending members)
      (plain : ∀ member ∈ members, Plain member.2) : Plain (.object members)

theorem Plain.ofPairs {pairs : List (String × Json)} (h : pairs.Forall fun pair => Plain pair.2) :
    Plain (ofPairs pairs) := by
  refine .object (Entries.ascending_ofList pairs) fun entry hentry => ?_
  exact List.forall_iff_forall_mem.mp h entry (Entries.mem_of_mem_ofList hentry)

theorem Plain.ofUInt32 (n : UInt32) : Plain (ofUInt32 n) :=
  .int _ _

theorem Plain.ofStrings (items : List String) : Plain (ofStrings items) := by
  refine .array fun item hitem => ?_
  obtain ⟨s, -, rfl⟩ := List.mem_map.mp hitem
  exact .string s

theorem printItems_eq_map (items : List Json) : printItems items = items.map printChars := by
  induction items with
  | nil => rfl
  | cons item items ih => rw [printItems, ih, List.map_cons]

/-- The text of a member of an object. -/
def printMember (member : String × Json) : List Char :=
  Quoted.json member.1 ++ ':' :: member.2.printChars

theorem printMembers_eq_map (members : List (String × Json)) :
    printMembers members = members.map printMember := by
  induction members with
  | nil => rfl
  | cons member members ih => rw [printMembers, ih, List.map_cons, printMember]

theorem printChars_array (items : List Json) :
    printChars (.array items) = '[' :: (List.intercalate [','] (items.map printChars) ++ [']']) := by
  rw [← printItems_eq_map]
  rfl

theorem printChars_object (members : List (String × Json)) :
    printChars (.object members) = '\x7b' :: (List.intercalate [','] (members.map printMember) ++ ['\x7d']) := by
  rw [← printMembers_eq_map]
  rfl

/-! ### Lexemes of a document -/

mutual

def lexemes : Json → List Lexeme
  | .null => [.scalar .null]
  | .bool b => [.scalar (.bool b)]
  | .number n => [.scalar (.number n)]
  | .string s => [.string s]
  | .array items => .mark '[' :: (List.intercalate [.mark ','] (itemLexemes items) ++ [.mark ']'])
  | .object members =>
      .mark '\x7b' :: (List.intercalate [.mark ','] (memberLexemes members) ++ [.mark '\x7d'])

def itemLexemes : List Json → List (List Lexeme)
  | [] => []
  | item :: items => item.lexemes :: itemLexemes items

def memberLexemes : List (String × Json) → List (List Lexeme)
  | [] => []
  | (name, item) :: members => (.string name :: .mark ':' :: item.lexemes) :: memberLexemes members

end

theorem itemLexemes_eq_map (items : List Json) : itemLexemes items = items.map lexemes := by
  induction items with
  | nil => rfl
  | cons item items ih => rw [itemLexemes, ih, List.map_cons]

/-- The lexemes of a member of an object. -/
def memberPieces (member : String × Json) : List Lexeme :=
  .string member.1 :: .mark ':' :: member.2.lexemes

theorem memberLexemes_eq_map (members : List (String × Json)) :
    memberLexemes members = members.map memberPieces := by
  induction members with
  | nil => rfl
  | cons member members ih => rw [memberLexemes, ih, List.map_cons, memberPieces]

theorem lexemes_array (items : List Json) :
    lexemes (.array items) = .mark '[' :: (List.intercalate [.mark ','] (items.map lexemes) ++ [.mark ']']) := by
  rw [← itemLexemes_eq_map]
  rfl

theorem lexemes_object (members : List (String × Json)) :
    lexemes (.object members) =
      .mark '\x7b' :: (List.intercalate [.mark ','] (members.map memberPieces) ++ [.mark '\x7d']) := by
  rw [← memberLexemes_eq_map]
  rfl

/-! ### Numbers -/

/-- Nothing, or a separator or bracket that ends a value. -/
def Ends (rest : List Char) : Prop :=
  ∀ c ∈ rest.head?, c = ',' ∨ c = ']' ∨ c = '\x7d'

theorem ends_nil : Ends [] := by
  rintro c ⟨⟩

theorem ends_cons {c : Char} (h : c = ',' ∨ c = ']' ∨ c = '\x7d') (rest : List Char) : Ends (c :: rest) := by
  rintro _ ⟨⟩
  exact h

theorem Ends.cases {rest : List Char} (h : Ends rest) :
    rest = [] ∨ ∃ c more, rest = c :: more ∧ (c = ',' ∨ c = ']' ∨ c = '\x7d') := by
  cases rest with
  | nil => exact .inl rfl
  | cons c more => exact .inr ⟨c, more, rfl, h c rfl⟩

/-- The only number that starts with a zero is zero. -/
theorem head_toDigits (n : Nat) :
    (Nat.toDigits 10 n).length = 1 ∨ (Nat.toDigits 10 n).head? ≠ some '0' := by
  by_cases h : n = 0
  · rw [h]
    exact .inl rfl
  · exact .inr (Decimal.head?_toDigits h)

theorem numeral?_int {n : Nat} {negative : Bool} {i : Int} (hi : i = if negative then -(n : Int) else n)
    (hzero : ¬ (negative = true ∧ n = 0)) (fits : Fits64 i) :
    numeral? negative (Nat.toDigits 10 n) [] 0 true = some (.number (.int i fits)) := by
  subst hi
  have hvalue : digitsValue (Nat.toDigits 10 n ++ []) = n := by
    rw [List.append_nil, digitsValue, Nat.ofDigitChars_ten_toDigits]
  simp only [numeral?, hvalue]
  exact dif_pos ⟨trivial, hzero, fits⟩

/-- The digits of a number end where a value ends, and neither a fraction nor an exponent follows. -/
theorem readNumber?_digits (negative : Bool) {digits rest : List Char} (hdigits : Decimal.IsDigits digits)
    (hne : digits ≠ []) (hlead : digits.length = 1 ∨ digits.head? ≠ some '0') (hrest : Ends rest) :
    readNumber? (if negative then '-' :: (digits ++ rest) else digits ++ rest) =
      (numeral? negative digits [] 0 true >>= fun doc => some (doc, rest)) := by
  have hspan : (digits ++ rest).span Char.isDigit = (digits, rest) := by
    refine span_run hdigits fun c hc => ?_
    rcases hrest c hc with rfl | rfl | rfl <;> rfl
  have hguard : (guard (¬ digits.isEmpty = true ∧ (digits.length = 1 ∨ digits.head? ≠ some '0')) : Option Unit) =
      some () := if_pos ⟨by rwa [List.isEmpty_iff], hlead⟩
  have hunsigned : ∀ more, digits ++ rest ≠ '-' :: more := by
    obtain ⟨d, ds, rfl⟩ := List.exists_cons_of_ne_nil hne
    rintro more ⟨⟩
    exact absurd (hdigits '-' (List.mem_cons_self ..)) (by decide)
  -- The sign stays a variable to the end: for a given sign the last step would unfold what the digits denote.
  unfold readNumber?
  split
  next minus cs hsign =>
    obtain ⟨rfl, rfl⟩ : negative = minus ∧ digits ++ rest = cs := by
      cases negative with
      | true =>
          cases hsign
          exact ⟨rfl, rfl⟩
      | false =>
          split at hsign
          · next hsigned => exact absurd hsigned (hunsigned _)
          · cases hsign
            exact ⟨rfl, rfl⟩
    rw [hspan]
    dsimp only
    rw [hguard]
    rcases hrest.cases with rfl | ⟨c, more, rfl, rfl | rfl | rfl⟩ <;> rfl

theorem readNumber?_intText (i : Int) (fits : Fits64 i) {rest : List Char} (hrest : Ends rest) :
    readNumber? (intText i ++ rest) = some (.number (.int i fits), rest) := by
  have hread (negative : Bool) := readNumber?_digits negative (Decimal.isDigits_toDigits i.natAbs)
    Nat.toDigits_ne_nil (head_toDigits i.natAbs) hrest
  by_cases hi : i < 0
  · have hvalue : i = if true then -(i.natAbs : Int) else i.natAbs := by
      rw [if_pos rfl]
      omega
    rw [intText, if_pos hi, List.cons_append]
    refine (hread true).trans ?_
    rw [numeral?_int hvalue (by omega) fits]
    rfl
  · have hvalue : i = if false then -(i.natAbs : Int) else i.natAbs := by
      rw [if_neg Bool.false_ne_true]
      omega
    rw [intText, if_neg hi]
    refine (hread false).trans ?_
    rw [numeral?_int hvalue (by simp) fits]
    rfl

/-! ### Cutting -/

/-- The text begins with these lexemes, and `rest` is left. No lexeme is shorter than a character. -/
structure Lexes (cs : List Char) (pieces : List Lexeme) (rest : List Char) : Prop where
  short : pieces.length + rest.length ≤ cs.length
  cut : ∀ fuel done, lexemes? (fuel + pieces.length) done cs = lexemes? fuel (pieces.reverse ++ done) rest

theorem Lexes.refl (cs : List Char) : Lexes cs [] cs :=
  ⟨Nat.le_of_eq (Nat.zero_add _), fun _ _ => rfl⟩

theorem Lexes.trans {cs mid rest : List Char} {pieces others : List Lexeme} (h : Lexes cs pieces mid)
    (h' : Lexes mid others rest) : Lexes cs (pieces ++ others) rest := by
  constructor
  · have hfirst := h.short
    have hsecond := h'.short
    rw [List.length_append]
    omega
  · intro fuel done
    rw [List.length_append, Nat.add_comm pieces.length, ← Nat.add_assoc, h.cut, h'.cut, List.reverse_append,
      List.append_assoc]

theorem lexes_of_lexeme {c : Char} {cs rest : List Char} {piece : Lexeme} (hgap : isGap c = false)
    (h : lexeme? (c :: cs) = some (piece, rest)) (hshort : rest.length ≤ cs.length) :
    Lexes (c :: cs) [piece] rest := by
  constructor
  · simp only [List.length_cons, List.length_nil]
    omega
  · intro fuel done
    have hstart : (c :: cs).dropWhile isGap = c :: cs := List.dropWhile_cons_of_neg (by rw [hgap]; decide)
    show lexemes? (fuel + 1) done (c :: cs) = lexemes? fuel (piece :: done) rest
    rw [lexemes?.eq_def]
    dsimp only
    rw [hstart]
    dsimp only
    rw [h]
    rfl

/-- What starts with a digit or a minus is read as a number. -/
theorem lexeme?_number {c : Char} (h : c.isDigit = true ∨ c = '-') (cs : List Char) :
    lexeme? (c :: cs) = readNumber? (c :: cs) >>= fun (doc, rest) => some (.scalar doc, rest) := by
  have hne {mark : Char} (hmark : (mark.isDigit || mark == '-') = false) : c ≠ mark := by
    rintro rfl
    rcases h with h | rfl
    · rw [h] at hmark
      cases hmark
    · cases hmark
  unfold lexeme?
  split
  · next hcons => exact absurd (List.cons.inj hcons).1 (hne rfl)
  · next hcons => exact absurd (List.cons.inj hcons).1 (hne rfl)
  · next hcons => exact absurd (List.cons.inj hcons).1 (hne rfl)
  · next hcons => exact absurd (List.cons.inj hcons).1 (hne rfl)
  · next hcons =>
      cases hcons
      rw [if_neg]
      · rfl
      · intro hmark
        simp only [List.contains_iff_mem, List.mem_cons, List.not_mem_nil, or_false] at hmark
        rcases hmark with rfl | rfl | rfl | rfl | rfl | rfl <;> exact hne rfl rfl
  · next hnil => cases hnil

theorem isGap_digit {c : Char} (h : c.isDigit = true) : isGap c = false := by
  rw [← Bool.not_eq_true]
  intro hgap
  simp only [isGap, Bool.or_eq_true, beq_iff_eq] at hgap
  rcases hgap with ((rfl | rfl) | rfl) | rfl <;> exact absurd h (by decide)

theorem lexes_int (i : Int) (fits : Fits64 i) {rest : List Char} (hrest : Ends rest) :
    Lexes (intText i ++ rest) [.scalar (.number (.int i fits))] rest := by
  obtain ⟨c, cs, htext, hstart⟩ : ∃ c cs, intText i = c :: cs ∧ (c.isDigit = true ∨ c = '-') := by
    rw [intText]
    split
    · exact ⟨_, _, rfl, .inr rfl⟩
    · obtain ⟨c, cs, hdigits⟩ := List.exists_cons_of_ne_nil (Nat.toDigits_ne_nil (n := i.natAbs) (b := 10))
      refine ⟨c, cs, hdigits, .inl (Decimal.isDigits_toDigits i.natAbs c ?_)⟩
      rw [hdigits]
      exact List.mem_cons_self ..
  have hread := readNumber?_intText i fits hrest
  rw [htext, List.cons_append] at hread ⊢
  refine lexes_of_lexeme ?_ ?_ (by simp)
  · rcases hstart with hdigit | rfl
    · exact isGap_digit hdigit
    · rfl
  · rw [lexeme?_number hstart, hread]
    rfl

theorem length_le_flatMap_jsonChar (cs : List Char) : cs.length ≤ (cs.flatMap Quoted.jsonChar).length := by
  induction cs with
  | nil => exact Nat.le_refl 0
  | cons c cs ih =>
      have hchar : 1 ≤ (Quoted.jsonChar c).length := by
        rcases Quoted.jsonChar_cases c with ⟨hself, -⟩ | ⟨escape, hescape, -⟩
        · rw [hself]
          exact Nat.le_refl 1
        · rw [hescape, List.length_cons]
          omega
      rw [List.flatMap_cons, List.length_append, List.length_cons]
      omega

theorem lexes_string (s : String) (rest : List Char) : Lexes (Quoted.json s ++ rest) [.string s] rest := by
  have htext : Quoted.json s ++ rest = '"' :: (s.toList.flatMap Quoted.jsonChar ++ '"' :: rest) := by
    rw [Quoted.json, List.cons_append, List.append_assoc, List.singleton_append]
  have hlength := length_le_flatMap_jsonChar s.toList
  have hfuel : s.toList.length < (s.toList.flatMap Quoted.jsonChar ++ '"' :: rest).length + 1 := by
    rw [List.length_append]
    omega
  rw [htext]
  refine lexes_of_lexeme rfl ?_ ?_
  · have hread := Quoted.readString?_flatMap s.toList hfuel [] rest
    rw [List.reverse_nil, List.nil_append, String.ofList_toList] at hread
    show (readString? _ [] _ >>= fun read => some (Lexeme.string read.1, read.2)) = _
    rw [hread]
    rfl
  · rw [List.length_append, List.length_cons]
    omega

/-- A mark is a lexeme by itself. -/
theorem lexes_mark {c : Char} (h : c ∈ ['[', ']', '\x7b', '\x7d', ',', ':']) (rest : List Char) :
    Lexes (c :: rest) [.mark c] rest := by
  simp only [List.mem_cons, List.not_mem_nil, or_false] at h
  rcases h with rfl | rfl | rfl | rfl | rfl | rfl <;> exact lexes_of_lexeme rfl rfl (Nat.le_refl _)

/-- Items with separators between them are cut if each of them is. -/
theorem lexes_intercalate {α : Type} {text : α → List Char} {pieces : α → List Lexeme} {items : List α}
    (h : ∀ item ∈ items, ∀ rest, Ends rest → Lexes (text item ++ rest) (pieces item) rest) {rest : List Char}
    (hrest : Ends rest) :
    Lexes (List.intercalate [','] (items.map text) ++ rest) (List.intercalate [.mark ','] (items.map pieces))
      rest := by
  induction items with
  | nil => exact .refl rest
  | cons item items ih =>
      obtain ⟨hitem, hitems⟩ := List.forall_mem_cons.mp h
      cases items with
      | nil =>
          rw [List.map_singleton, List.map_singleton, List.intercalate_singleton, List.intercalate_singleton]
          exact hitem rest hrest
      | cons next items =>
          simp only [List.map_cons, List.intercalate_cons_cons, List.append_assoc, List.singleton_append]
          refine (hitem _ (ends_cons (.inl rfl) _)).trans ?_
          exact (lexes_mark (by decide) _).trans (ih hitems)

/-- The text of a document is cut into the lexemes of the document, whatever ends it. -/
theorem lexes_printChars {doc : Json} (h : Plain doc) {rest : List Char} (hrest : Ends rest) :
    Lexes (doc.printChars ++ rest) doc.lexemes rest := by
  induction h generalizing rest with
  | null => exact lexes_of_lexeme rfl rfl (Nat.le_add_right rest.length 3)
  | bool b =>
      cases b with
      | false => exact lexes_of_lexeme rfl rfl (Nat.le_add_right rest.length 4)
      | true => exact lexes_of_lexeme rfl rfl (Nat.le_add_right rest.length 3)
  | int i fits => exact lexes_int i fits hrest
  | string s => exact lexes_string s rest
  | @array items _ ih =>
      rw [printChars_array, lexemes_array, List.cons_append, List.append_assoc]
      refine (lexes_mark (by decide) _).trans ?_
      refine (lexes_intercalate (fun item hitem _ => ih item hitem) (ends_cons (.inr (.inl rfl)) _)).trans ?_
      exact lexes_mark (by decide) rest
  | @object members _ _ ih =>
      have hmember (member : String × Json) (hmember : member ∈ members) (rest : List Char) (hrest : Ends rest) :
          Lexes (printMember member ++ rest) (memberPieces member) rest := by
        rw [printMember, List.append_assoc, List.cons_append]
        exact (lexes_string member.1 _).trans ((lexes_mark (by decide) _).trans (ih member hmember hrest))
      rw [printChars_object, lexemes_object, List.cons_append, List.append_assoc]
      refine (lexes_mark (by decide) _).trans ?_
      refine (lexes_intercalate hmember (ends_cons (.inr (.inr rfl)) _)).trans ?_
      exact lexes_mark (by decide) rest

/-! ### Building -/

theorem foldlM_singleton (p : Progress) (piece : Lexeme) : [piece].foldlM Progress.step p = p.step piece := by
  rw [List.foldlM_cons]
  exact bind_pure (p.step piece)

theorem foldlM_of_step {p next : Progress} {piece : Lexeme} (h : p.step piece = some next)
    (pieces : List Lexeme) :
    (piece :: pieces).foldlM Progress.step p = pieces.foldlM Progress.step next := by
  rw [List.foldlM_cons, h]
  rfl

/-- Items with separators between them are collected, the latest first, if each of them is. The first item is awaited
in a state of its own, in which there may also be none. -/
theorem foldlM_intercalate {α : Type} (pieces : α → List Lexeme) {start : Progress}
    (before after : List α → Progress) {item : α} {items done : List α}
    (hstart : (pieces item).foldlM Progress.step start = some (after (item :: done)))
    (hcomma : ∀ done, (after done).step (.mark ',') = some (before done))
    (hitems : ∀ item ∈ items, ∀ done,
      (pieces item).foldlM Progress.step (before done) = some (after (item :: done))) :
    (List.intercalate [.mark ','] ((item :: items).map pieces)).foldlM Progress.step start =
      some (after ((item :: items).reverse ++ done)) := by
  induction items generalizing item done start with
  | nil =>
      rw [List.map_singleton, List.intercalate_singleton]
      exact hstart
  | cons next items ih =>
      obtain ⟨hnext, hitems⟩ := List.forall_mem_cons.mp hitems
      have hrest := ih (hnext (item :: done)) hitems
      rw [List.map_cons, List.map_cons, List.intercalate_cons_cons, List.append_assoc, List.foldlM_append, hstart]
      refine (foldlM_of_step (hcomma (item :: done)) _).trans (hrest.trans ?_)
      rw [List.reverse_cons (a := item), List.append_assoc, List.singleton_append]

/-- The lexemes of the document put it wherever a value is awaited. -/
def Builds (doc : Json) : Prop :=
  ∀ awaiting, awaiting = .value ∨ awaiting = .firstValue → ∀ frames,
    doc.lexemes.foldlM Progress.step ⟨awaiting, frames, none⟩ = Progress.deliver doc frames

theorem builds_of_step {doc : Json} {piece : Lexeme} (h : doc.lexemes = [piece])
    (hvalue : ∀ frames, Progress.step ⟨.value, frames, none⟩ piece = Progress.deliver doc frames)
    (hfirst : ∀ frames, Progress.step ⟨.firstValue, frames, none⟩ piece = Progress.deliver doc frames) :
    Builds doc := by
  intro awaiting hawaiting frames
  rw [h, foldlM_singleton]
  rcases hawaiting with rfl | rfl
  · exact hvalue frames
  · exact hfirst frames

theorem builds_array {items : List Json} (h : ∀ item ∈ items, Builds item) : Builds (.array items) := by
  intro awaiting hawaiting frames
  have hopen : Progress.step ⟨awaiting, frames, none⟩ (.mark '[') =
      some ⟨.firstValue, .array [] :: frames, none⟩ := by
    rcases hawaiting with rfl | rfl <;> rfl
  rw [lexemes_array, foldlM_of_step hopen]
  cases items with
  | nil => exact foldlM_singleton _ _
  | cons item items =>
      obtain ⟨hitem, hitems⟩ := List.forall_mem_cons.mp h
      have hcollected := foldlM_intercalate lexemes (fun done => ⟨.value, .array done :: frames, none⟩)
        (fun done => ⟨.separator, .array done :: frames, none⟩)
        (hitem .firstValue (.inr rfl) (.array [] :: frames)) (fun _ => rfl) (fun item hmem done => hitems item hmem .value (.inl rfl) (.array done :: frames))
      rw [List.foldlM_append, hcollected, List.append_nil]
      refine (foldlM_singleton _ _).trans ?_
      show Progress.deliver (.array (item :: items).reverse.reverse) frames = _
      rw [List.reverse_reverse]

theorem builds_object {members : List (String × Json)} (hascending : Entries.Ascending members)
    (h : ∀ member ∈ members, Builds member.2) : Builds (.object members) := by
  intro awaiting hawaiting frames
  have hopen : Progress.step ⟨awaiting, frames, none⟩ (.mark '\x7b') =
      some ⟨.firstName, .object [] :: frames, none⟩ := by
    rcases hawaiting with rfl | rfl <;> rfl
  rw [lexemes_object, foldlM_of_step hopen]
  cases members with
  | nil => exact foldlM_singleton _ _
  | cons member members =>
      have hplaced (awaiting : Awaiting) (hname : awaiting = .name ∨ awaiting = .firstName)
          (other : String × Json) (hother : other ∈ member :: members) (done : List (String × Json)) :
          (memberPieces other).foldlM Progress.step ⟨awaiting, .object done :: frames, none⟩ =
            some ⟨.separator, .object (other :: done) :: frames, none⟩ := by
        have hstring : Progress.step ⟨awaiting, .object done :: frames, none⟩ (.string other.1) =
            some ⟨.colon, .member done other.1 :: frames, none⟩ := by
          rcases hname with rfl | rfl <;> rfl
        rw [memberPieces, foldlM_of_step hstring]
        refine (foldlM_of_step rfl _).trans ?_
        exact h other hother .value (.inl rfl) (.member done other.1 :: frames)
      have hcollected := foldlM_intercalate memberPieces (fun done => ⟨.name, .object done :: frames, none⟩)
        (fun done => ⟨.separator, .object done :: frames, none⟩)
        (hplaced .firstName (.inr rfl) member (List.mem_cons_self ..) []) (fun _ => rfl)
        (fun other hother => hplaced .name (.inl rfl) other (List.mem_cons_of_mem _ hother))
      rw [List.foldlM_append, hcollected, List.append_nil]
      refine (foldlM_singleton _ _).trans ?_
      show Progress.deliver (ofPairs (member :: members).reverse.reverse) frames = _
      rw [List.reverse_reverse, Json.ofPairs, hascending.ofList_eq]

theorem Plain.builds {doc : Json} (h : Plain doc) : Builds doc := by
  induction h with
  | null => exact builds_of_step rfl (fun _ => rfl) fun _ => rfl
  | bool b => exact builds_of_step rfl (fun _ => rfl) fun _ => rfl
  | int i fits => exact builds_of_step rfl (fun _ => rfl) fun _ => rfl
  | string s => exact builds_of_step rfl (fun _ => rfl) fun _ => rfl
  | array _ ih => exact builds_array ih
  | object ascending _ ih => exact builds_object ascending ih

theorem read?_print {doc : Json} (h : Plain doc) : read? doc.print = some doc := by
  have hlexes := lexes_printChars h ends_nil
  rw [List.append_nil] at hlexes
  obtain ⟨fuel, hfuel⟩ := Nat.exists_eq_add_of_le' (Nat.le_of_add_right_le hlexes.short)
  have hcut : lexemes? doc.printChars.length [] doc.printChars = some doc.lexemes := by
    rw [hfuel, hlexes.cut, List.append_nil, lexemes?.eq_def]
    show some doc.lexemes.reverse.reverse = _
    rw [List.reverse_reverse]
  rw [read?, print, String.toList_ofList, hcut]
  show doc.lexemes.foldlM Progress.step ⟨.value, [], none⟩ >>= _ = _
  rw [h.builds .value (.inl rfl) []]
  rfl

end StampedPrograms.Json
