import StampedPrograms.Text.Quoted
import StampedPrograms.Token.Lexer
import StampedPrograms.Proofs.Token.Lexer

/-!
Reading scripts back. A reader takes quoted literals as single atoms, and a script is harmless where it
has only the characters of expressions outside of literals, no comments, and look-ups of nothing but
the fields and parameters that it may name. The texts that lowering puts together have a grammar, of
which every text is read with its brackets matched and is harmless throughout.
-/

namespace StampedPrograms.Script

/-- A character outside of literals, or a whole literal with the text it stands for. -/
inductive Atom where
  | char (c : Char)
  | literal (text : List Char)
deriving DecidableEq

/-- Where a reader is: outside of literals, in a literal of which it has read this text, or there
after a backslash. -/
inductive Place where
  | outside
  | inside (text : List Char)
  | escaped (text : List Char)

/-- The atoms of a text, if it ends outside of literals. -/
def readFrom : Place → List Char → Option (List Atom)
  | .outside, [] => some []
  | .inside _, [] => none
  | .escaped _, [] => none
  | .outside, c :: cs =>
      if c = '\'' then readFrom (.inside []) cs else (readFrom .outside cs).map (.char c :: ·)
  | .inside text, c :: cs =>
      if c = '\'' then (readFrom .outside cs).map (.literal text :: ·)
      else if c = '\\' then readFrom (.escaped text) cs
      else readFrom (.inside (text ++ [c])) cs
  | .escaped text, c :: cs => readFrom (.inside (text ++ [c])) cs

def read (cs : List Char) : Option (List Atom) :=
  readFrom .outside cs

/-- A text outside of literals. -/
def plain (cs : List Char) : List Atom :=
  cs.map .char

/-- The brackets to be closed after one more character, the innermost first; none if it closes a bracket
that is not the innermost. -/
def bracket (stack : List Char) (c : Char) : Option (List Char) :=
  if c = '(' then some (')' :: stack)
  else if c = '[' then some (']' :: stack)
  else if c = ')' ∨ c = ']' then if stack.head? = some c then some stack.tail else none
  else some stack

/-- The brackets to be closed after the atoms. -/
def awaited : List Char → List Atom → Option (List Char)
  | stack, [] => some stack
  | stack, .literal _ :: atoms => awaited stack atoms
  | stack, .char c :: atoms => (bracket stack c).bind fun stack => awaited stack atoms

def isScriptChar (c : Char) : Bool :=
  c.isAlphanum || " _.,?:!()[]+-*/%<>=&|".toList.contains c

/-- What comes before the name of a field. -/
def fieldCalls : List (List Char) :=
  ["doc.containsKey(".toList, "doc[".toList]

def Atom.isNamePart : Atom → Bool
  | .char c => Token.isNamePart c
  | .literal _ => false

/-- What the rest of a script may be at some place in it. -/
structure Harmless (fields params : List String) (rest : List Atom) : Prop where
  char : ∀ c tail, rest = .char c :: tail → isScriptChar c = true
  lineComment : ∀ tail, rest ≠ plain "//".toList ++ tail
  blockComment : ∀ tail, rest ≠ plain "/*".toList ++ tail
  field : ∀ call ∈ fieldCalls, ∀ tail, rest = plain call ++ tail →
    ∃ name ∈ fields, tail.head? = some (.literal name.toList)
  param : ∀ tail, rest = plain "params.".toList ++ tail →
    ∃ name ∈ params, Token.IsName name.toList ∧ tail.takeWhile Atom.isNamePart = plain name.toList

/-- Harmless at every place. -/
def HarmlessThroughout (fields params : List String) (atoms : List Atom) : Prop :=
  ∀ rest, rest <:+ atoms → Harmless fields params rest

/-! ### Literals -/

theorem readFrom_scriptChar (text rest : List Char) (c : Char) :
    readFrom (.inside text) (Quoted.scriptChar c ++ rest) = readFrom (.inside (text ++ [c])) rest := by
  unfold Quoted.scriptChar
  split
  · simp [readFrom]
  · next h =>
      rw [not_or] at h
      simp [readFrom, h.1, h.2]

theorem readFrom_flatMap (text s rest : List Char) :
    readFrom (.inside text) (s.flatMap Quoted.scriptChar ++ '\'' :: rest) =
      (readFrom .outside rest).map (.literal (text ++ s) :: ·) := by
  induction s generalizing text with
  | nil => simp [readFrom]
  | cons c s ih =>
      rw [List.flatMap_cons, List.append_assoc, readFrom_scriptChar, ih]
      simp

theorem readFrom_script (s : String) (rest : List Char) :
    readFrom .outside (Quoted.script s ++ rest) =
      (readFrom .outside rest).map (.literal s.toList :: ·) := by
  have hbody := readFrom_flatMap [] s.toList rest
  simpa [Quoted.script, readFrom] using hbody

theorem readFrom_plain {cs : List Char} (h : ∀ c ∈ cs, isScriptChar c = true) (rest : List Char) :
    readFrom .outside (cs ++ rest) = (readFrom .outside rest).map (plain cs ++ ·) := by
  induction cs with
  | nil => simp [plain]
  | cons c cs ih =>
      obtain ⟨hc, hcs⟩ := List.forall_mem_cons.mp h
      have hquote : c ≠ '\'' := by
        rintro rfl
        cases hc
      rw [List.cons_append, readFrom, if_neg hquote, ih hcs]
      simp [plain, Function.comp_def]

/-! ### Places -/

section Places

variable {fields params : List String}

theorem harmlessThroughout_nil : HarmlessThroughout fields params [] := by
  intro rest hrest
  rw [List.suffix_nil.mp hrest]
  refine ⟨?_, ?_, ?_, ?_, ?_⟩ <;> simp [plain, fieldCalls]

theorem harmlessThroughout_cons {a : Atom} {rest : List Atom} :
    HarmlessThroughout fields params (a :: rest) ↔
      Harmless fields params (a :: rest) ∧ HarmlessThroughout fields params rest := by
  simp only [HarmlessThroughout, List.suffix_cons_iff, or_imp, forall_and, forall_eq]

theorem harmless_literal (text : List Char) (tail : List Atom) :
    Harmless fields params (.literal text :: tail) := by
  refine ⟨?_, ?_, ?_, ?_, ?_⟩ <;> simp [plain, fieldCalls]

/-- Whether two characters in a row may begin a comment or a look-up. -/
def begins (c d : Char) : Bool :=
  (c == '/' && (d == '/' || d == '*')) || (c == 'd' && d == 'o') || (c == 'p' && d == 'a')

theorem harmless_char {c : Char} {tail : List Atom} (hc : isScriptChar c = true)
    (hnext : ∀ d ∈ tail.head?, ∀ e, d = .char e → begins c e = false) :
    Harmless fields params (.char c :: tail) := by
  have hbegins (d : Char) (more : List Char) (rest : List Atom)
      (h : .char c :: tail = plain (c :: d :: more) ++ rest) : begins c d = false := by
    rw [(List.cons.inj h).2] at hnext
    exact hnext _ rfl d rfl
  refine ⟨?_, ?_, ?_, ?_, ?_⟩
  · rintro d rest ⟨⟩
    exact hc
  · rintro rest h
    obtain rfl : c = '/' := by injection (List.cons.inj h).1
    cases hbegins _ _ _ h
  · rintro rest h
    obtain rfl : c = '/' := by injection (List.cons.inj h).1
    cases hbegins _ _ _ h
  · rintro call hcall rest h
    simp only [fieldCalls, List.mem_cons, List.not_mem_nil, or_false] at hcall
    rcases hcall with rfl | rfl
    all_goals
      obtain rfl : c = 'd' := by injection (List.cons.inj h).1
      cases hbegins _ _ _ h
  · rintro rest h
    obtain rfl : c = 'p' := by injection (List.cons.inj h).1
    cases hbegins _ _ _ h

/-- A text that begins no comment and no look-up, not even with what comes after it. -/
def quiet : List Char → Bool
  | [] => true
  | [c] => isScriptChar c && !(['/', 'd', 'p'].contains c)
  | c :: d :: cs => isScriptChar c && !begins c d && quiet (d :: cs)

theorem isScriptChar_of_quiet {cs : List Char} (h : quiet cs = true) :
    ∀ c ∈ cs, isScriptChar c = true := by
  induction cs with
  | nil => simp
  | cons c cs ih =>
      cases cs with
      | nil =>
          simp only [quiet, Bool.and_eq_true] at h
          simpa using h.1
      | cons d cs =>
          simp only [quiet, Bool.and_eq_true] at h
          exact List.forall_mem_cons.mpr ⟨h.1.1, ih h.2⟩

theorem harmless_quiet {cs : List Char} {rest : List Atom} (h : quiet cs = true)
    (hrest : HarmlessThroughout fields params rest) :
    HarmlessThroughout fields params (plain cs ++ rest) := by
  induction cs with
  | nil => exact hrest
  | cons c cs ih =>
      cases cs with
      | nil =>
          simp only [quiet, Bool.and_eq_true] at h
          refine harmlessThroughout_cons.mpr ⟨harmless_char h.1 ?_, hrest⟩
          rintro d - e -
          have hc := h.2
          simp at hc
          simp [begins, hc]
      | cons d cs =>
          simp only [quiet, Bool.and_eq_true, Bool.not_eq_true'] at h
          refine harmlessThroughout_cons.mpr ⟨harmless_char h.1.1 ?_, ih h.2⟩
          rintro _ ⟨⟩ _ ⟨⟩
          exact h.1.2

/-- The characters that come after a part of a script. -/
def followers : List Char :=
  [' ', ')', ',', ']']

/-- What comes after a part of a script. -/
def Follows (rest : List Atom) : Prop :=
  ∀ a ∈ rest.head?, ∃ c ∈ followers, a = .char c

theorem isNamePart_follower {c : Char} (h : c ∈ followers) : Token.isNamePart c = false := by
  have hall : followers.all (fun c => !Token.isNamePart c) = true := by decide
  simpa using List.all_eq_true.mp hall c h

theorem takeWhile_of_follows {rest : List Atom} (hrest : Follows rest) :
    rest.takeWhile Atom.isNamePart = [] := by
  cases rest with
  | nil => rfl
  | cons a rest =>
      obtain ⟨c, hc, rfl⟩ := hrest a rfl
      exact List.takeWhile_cons_of_neg (by simp [Atom.isNamePart, isNamePart_follower hc])

theorem takeWhile_name {name : List Char} (hname : ∀ c ∈ name, Token.isNamePart c = true)
    (rest : List Atom) :
    (plain name ++ rest).takeWhile Atom.isNamePart = plain name ++ rest.takeWhile Atom.isNamePart := by
  rw [List.takeWhile_append_of_pos]
  intro a ha
  obtain ⟨c, hc, rfl⟩ := List.mem_map.mp ha
  exact hname c hc

/-- A name does not run into a word that goes on with a character that neither is in names nor comes
after parts. -/
theorem plain_ne_of_stop {name word : List Char} (hname : ∀ c ∈ name, Token.isNamePart c = true)
    (hword : word.all Token.isNamePart = true) {rest : List Atom} (hrest : Follows rest)
    {stop : Char} (hpart : Token.isNamePart stop = false) (hstop : stop ∉ followers) (tail : List Atom) :
    plain name ++ rest ≠ plain word ++ .char stop :: tail := by
  intro h
  have hruns := congrArg (List.takeWhile Atom.isNamePart) h
  rw [takeWhile_name hname, takeWhile_name (List.all_eq_true.mp hword), takeWhile_of_follows hrest,
    List.takeWhile_cons_of_neg (by simp [Atom.isNamePart, hpart])] at hruns
  rw [List.append_cancel_right hruns] at h
  obtain ⟨c, hc, hsame⟩ := hrest (.char stop) (by rw [List.append_cancel_left h]; rfl)
  cases hsame
  exact hstop hc

theorem isScriptChar_of_isNamePart {c : Char} (h : Token.isNamePart c = true) : isScriptChar c = true := by
  simp only [Token.isNamePart, Bool.or_eq_true, beq_iff_eq] at h
  rcases h with h | rfl
  · rw [isScriptChar, h, Bool.true_or]
  · rfl

theorem harmless_name {name : List Char} (hname : ∀ c ∈ name, Token.isNamePart c = true)
    {rest : List Atom} (hrest : Follows rest) (hharmless : HarmlessThroughout fields params rest) :
    HarmlessThroughout fields params (plain name ++ rest) := by
  induction name with
  | nil => exact hharmless
  | cons c name ih =>
      refine harmlessThroughout_cons.mpr ⟨?_, ih (List.forall_mem_cons.mp hname).2⟩
      have hc := (List.forall_mem_cons.mp hname).1
      have hstop {word : List Char} (hword : word.all Token.isNamePart = true) {stop : Char}
          (hpart : Token.isNamePart stop = false) (hstop : stop ∉ followers) (tail : List Atom) :=
        plain_ne_of_stop hname hword hrest hpart hstop tail
      have hslash (d : Char) (more : List Char) (tail : List Atom)
          (h : .char c :: (plain name ++ rest) = plain ('/' :: d :: more) ++ tail) : False := by
        obtain rfl : c = '/' := by injection (List.cons.inj h).1
        cases hc
      refine ⟨?_, fun tail h => hslash _ _ _ h, fun tail h => hslash _ _ _ h, ?_, ?_⟩
      · rintro d tail ⟨⟩
        exact isScriptChar_of_isNamePart hc
      · intro call hcall tail h
        simp only [fieldCalls, List.mem_cons, List.not_mem_nil, or_false] at hcall
        rcases hcall with rfl | rfl
        · exact absurd h (@hstop "doc".toList (by decide) '.' rfl (by decide) _)
        · exact absurd h (@hstop "doc".toList (by decide) '[' rfl (by decide) _)
      · intro tail h
        exact absurd h (@hstop "params".toList (by decide) '.' rfl (by decide) _)

theorem harmless_param {name : String} (hname : Token.IsName name.toList) (hparam : name ∈ params)
    {rest : List Atom} (hrest : Follows rest) (hharmless : HarmlessThroughout fields params rest) :
    HarmlessThroughout fields params (plain ("params.".toList ++ name.toList) ++ rest) := by
  have htail : HarmlessThroughout fields params
      (plain "arams.".toList ++ (plain name.toList ++ rest)) :=
    harmless_quiet (by decide) (harmless_name hname.isNamePart hrest hharmless)
  have htext : plain ("params.".toList ++ name.toList) ++ rest =
      .char 'p' :: (plain "arams.".toList ++ (plain name.toList ++ rest)) := by
    rw [plain, List.map_append, List.append_assoc]
    rfl
  rw [htext]
  refine harmlessThroughout_cons.mpr ⟨⟨?_, ?_, ?_, ?_, ?_⟩, htail⟩
  · rintro c tail ⟨⟩
    rfl
  · rintro tail ⟨⟩
  · rintro tail ⟨⟩
  · intro call hcall tail h
    simp only [fieldCalls, List.mem_cons, List.not_mem_nil, or_false] at hcall
    rcases hcall with rfl | rfl <;> cases h
  · intro tail h
    refine ⟨name, hparam, hname, ?_⟩
    have htext : plain "params.".toList ++ (plain name.toList ++ rest) = plain "params.".toList ++ tail := h
    rw [← List.append_cancel_left htext, takeWhile_name hname.isNamePart, takeWhile_of_follows hrest, List.append_nil]

theorem harmless_field {call : List Char} (hcall : call ∈ fieldCalls) {name : String}
    (hname : name ∈ fields) {rest : List Atom} (hharmless : HarmlessThroughout fields params rest) :
    HarmlessThroughout fields params (plain call ++ .literal name.toList :: rest) := by
  have hnext (call' : List Char) (hcall' : call' ∈ fieldCalls) (tail : List Atom)
      (h : plain call ++ .literal name.toList :: rest = plain call' ++ tail) :
      tail.head? = some (.literal name.toList) := by
    simp only [fieldCalls, List.mem_cons, List.not_mem_nil, or_false] at hcall hcall'
    rcases hcall with rfl | rfl <;> rcases hcall' with rfl | rfl
    · rw [← List.append_cancel_left h, List.head?_cons]
    · simp [plain] at h
    · simp [plain] at h
    · rw [← List.append_cancel_left h, List.head?_cons]
  obtain ⟨more, rfl, hmore⟩ : ∃ more, call = 'd' :: more ∧ quiet more = true := by
    simp only [fieldCalls, List.mem_cons, List.not_mem_nil, or_false] at hcall
    rcases hcall with rfl | rfl
    · exact ⟨"oc.containsKey(".toList, rfl, by decide⟩
    · exact ⟨"oc[".toList, rfl, by decide⟩
  have hliteral := harmlessThroughout_cons.mpr ⟨harmless_literal name.toList rest, hharmless⟩
  refine harmlessThroughout_cons.mpr ⟨⟨?_, ?_, ?_, ?_, ?_⟩, harmless_quiet hmore hliteral⟩
  · rintro c tail ⟨⟩
    rfl
  · rintro tail ⟨⟩
  · rintro tail ⟨⟩
  · intro call' hcall' tail h
    exact ⟨name, hname, hnext call' hcall' tail h⟩
  · rintro tail ⟨⟩

end Places

/-! ### The grammar of scripts -/

/-- The texts that lowering puts together, with the brackets that are awaited before and after. A part
of a script has all its brackets closed, and stands before one of the characters that come after
parts. -/
inductive Emitted (fields params : List String) : List Char → List Char → List Char → Prop where
  | nil {stack : List Char} : Emitted fields params stack stack []
  | text {stack stack' stack'' cs rest : List Char} :
      quiet cs = true → awaited stack (plain cs) = some stack' →
      Emitted fields params stack' stack'' rest → Emitted fields params stack stack'' (cs ++ rest)
  | part {stack stack' part rest : List Char} :
      Emitted fields params [] [] part → Emitted fields params stack stack' rest →
      (∃ c ∈ rest.head?, c ∈ followers) → Emitted fields params stack stack' (part ++ rest)
  | literal {stack : List Char} (s : String) : Emitted fields params stack stack (Quoted.script s)
  | param {stack : List Char} {name : String} :
      Token.IsName name.toList → name ∈ params →
      Emitted fields params stack stack ("params.".toList ++ name.toList)
  | field {stack stack' stack'' call rest : List Char} {name : String} :
      call ∈ fieldCalls → name ∈ fields → awaited stack (plain call) = some stack' →
      Emitted fields params stack' stack'' rest →
      Emitted fields params stack stack'' (call ++ (Quoted.script name ++ rest))

theorem bracket_append {stack stack' : List Char} {c : Char} (h : bracket stack c = some stack')
    (more : List Char) : bracket (stack ++ more) c = some (stack' ++ more) := by
  unfold bracket at h ⊢
  split at h
  · next hopen =>
      cases h
      rw [if_pos hopen, List.cons_append]
  next hround =>
  split at h
  · next hopen =>
      cases h
      rw [if_neg hround, if_pos hopen, List.cons_append]
  next hsquare =>
  rw [if_neg hround, if_neg hsquare]
  split at h
  · next hclose =>
      split at h
      · next hhead =>
          obtain ⟨rest, rfl⟩ := List.head?_eq_some_iff.mp hhead
          cases h
          rw [if_pos hclose]
          exact if_pos rfl
      · cases h
  · next hclose =>
      cases h
      rw [if_neg hclose]

theorem awaited_append {stack stack' : List Char} {atoms : List Atom}
    (h : awaited stack atoms = some stack') (more : List Char) (rest : List Atom) :
    awaited (stack ++ more) (atoms ++ rest) = awaited (stack' ++ more) rest := by
  induction atoms generalizing stack with
  | nil =>
      cases h
      rfl
  | cons a atoms ih =>
      cases a with
      | literal text => exact ih h
      | char c =>
          obtain ⟨next, hnext, h⟩ := Option.bind_eq_some_iff.mp h
          rw [List.cons_append, awaited, bracket_append hnext, Option.bind_some, ih h]

theorem awaited_plain {cs : List Char} (h : ∀ c ∈ cs, c ∉ ['(', ')', '[', ']']) (stack : List Char) :
    awaited stack (plain cs) = some stack := by
  induction cs with
  | nil => rfl
  | cons c cs ih =>
      obtain ⟨hc, hcs⟩ := List.forall_mem_cons.mp h
      simp only [List.mem_cons, List.not_mem_nil, or_false, not_or] at hc
      have hbracket : bracket stack c = some stack := by
        rw [bracket, if_neg hc.1, if_neg hc.2.2.1, if_neg (not_or.mpr ⟨hc.2.1, hc.2.2.2⟩)]
      rw [plain, List.map_cons, awaited, hbracket, Option.bind_some]
      exact ih hcs

/-- How an emitted text is read in front of any other. -/
structure Reading (fields params : List String) (stack stack' text : List Char) (atoms : List Atom) :
    Prop where
  reads : ∀ rest, readFrom .outside (text ++ rest) = (readFrom .outside rest).map (atoms ++ ·)
  awaits : ∀ more rest, awaited (stack ++ more) (atoms ++ rest) = awaited (stack' ++ more) rest
  harmless : ∀ rest, Follows rest → HarmlessThroughout fields params rest →
    HarmlessThroughout fields params (atoms ++ rest)

section Readings

variable {fields params : List String} {stack stack' stack'' text : List Char} {atoms : List Atom}

theorem Reading.follows (h : Reading fields params stack stack' text atoms)
    (hhead : ∃ c ∈ text.head?, c ∈ followers) (rest : List Atom) : Follows (atoms ++ rest) := by
  obtain ⟨c, hc, hfollower⟩ := hhead
  cases text with
  | nil => cases hc
  | cons d cs =>
      cases hc
      have hquote : c ≠ '\'' := by
        rintro rfl
        exact absurd hfollower (by decide)
      have hfirst : readFrom .outside (c :: cs ++ []) =
          (readFrom .outside (cs ++ [])).map (.char c :: ·) := if_neg hquote
      have hread := h.reads []
      rw [hfirst, readFrom, Option.map_some, List.append_nil, Option.map_eq_some_iff] at hread
      obtain ⟨tail, -, htail⟩ := hread
      rw [List.append_nil] at htail
      subst htail
      rintro a ⟨⟩
      exact ⟨c, hfollower, rfl⟩

theorem Reading.prepend {cs rest : List Char} (h : Reading fields params stack' stack'' rest atoms)
    (hquiet : quiet cs = true) (hstack : awaited stack (plain cs) = some stack') :
    Reading fields params stack stack'' (cs ++ rest) (plain cs ++ atoms) := by
  refine ⟨fun more => ?_, fun more after => ?_, fun after hafter hharmless => ?_⟩
  · rw [List.append_assoc, readFrom_plain (isScriptChar_of_quiet hquiet), h.reads, Option.map_map]
    simp [Function.comp_def]
  · rw [List.append_assoc, awaited_append hstack, h.awaits]
  · rw [List.append_assoc]
    exact harmless_quiet hquiet (h.harmless after hafter hharmless)

theorem Reading.append {part rest : List Char} {atoms' : List Atom}
    (h : Reading fields params [] [] part atoms) (h' : Reading fields params stack stack' rest atoms')
    (hhead : ∃ c ∈ rest.head?, c ∈ followers) :
    Reading fields params stack stack' (part ++ rest) (atoms ++ atoms') := by
  refine ⟨fun more => ?_, fun more after => ?_, fun after hafter hharmless => ?_⟩
  · rw [List.append_assoc, h.reads, h'.reads, Option.map_map]
    simp [Function.comp_def]
  · rw [List.append_assoc, ← h'.awaits]
    exact h.awaits (stack ++ more) _
  · rw [List.append_assoc]
    exact h.harmless _ (h'.follows hhead after) (h'.harmless after hafter hharmless)

theorem reading_param {name : String} (hname : Token.IsName name.toList) (hparam : name ∈ params) :
    Reading fields params stack stack ("params.".toList ++ name.toList)
      (plain ("params.".toList ++ name.toList)) := by
  have hword : "params.".toList.all (fun c => Token.isNamePart c || c == '.') = true := by decide
  have hchars : ∀ c ∈ "params.".toList ++ name.toList, Token.isNamePart c = true ∨ c = '.' := by
    intro c hc
    rcases List.mem_append.mp hc with hc | hc
    · simpa using List.all_eq_true.mp hword c hc
    · exact .inl (hname.isNamePart c hc)
  have hscript : ∀ c ∈ "params.".toList ++ name.toList, isScriptChar c = true := by
    intro c hc
    rcases hchars c hc with h | rfl
    · exact isScriptChar_of_isNamePart h
    · rfl
  have hbrackets : ∀ c ∈ "params.".toList ++ name.toList, c ∉ ['(', ')', '[', ']'] := by
    intro c hc hbracket
    simp only [List.mem_cons, List.not_mem_nil, or_false] at hbracket
    rcases hbracket with rfl | rfl | rfl | rfl <;> exact absurd (hchars _ hc) (by decide)
  exact ⟨readFrom_plain hscript, fun more => awaited_append (awaited_plain hbrackets stack) more,
    fun rest => harmless_param hname hparam⟩

theorem Reading.field {call rest : List Char} {name : String}
    (h : Reading fields params stack' stack'' rest atoms) (hcall : call ∈ fieldCalls)
    (hname : name ∈ fields) (hstack : awaited stack (plain call) = some stack') :
    Reading fields params stack stack'' (call ++ (Quoted.script name ++ rest))
      (plain call ++ .literal name.toList :: atoms) := by
  have hscript : call.all isScriptChar = true := by
    simp only [fieldCalls, List.mem_cons, List.not_mem_nil, or_false] at hcall
    rcases hcall with rfl | rfl <;> decide
  refine ⟨fun more => ?_, fun more after => ?_, fun after hafter hharmless => ?_⟩
  · rw [List.append_assoc, List.append_assoc, readFrom_plain (List.all_eq_true.mp hscript),
      readFrom_script, h.reads, Option.map_map, Option.map_map]
    simp [Function.comp_def]
  · rw [List.append_assoc, awaited_append hstack]
    exact h.awaits more after
  · rw [List.append_assoc]
    exact harmless_field hcall hname (h.harmless after hafter hharmless)

theorem exists_reading (h : Emitted fields params stack stack' text) :
    ∃ atoms, Reading fields params stack stack' text atoms := by
  induction h with
  | nil => exact ⟨[], fun rest => by simp, fun more rest => rfl, fun rest _ h => h⟩
  | text hquiet hstack _ ih =>
      obtain ⟨atoms, h⟩ := ih
      exact ⟨_, h.prepend hquiet hstack⟩
  | part _ _ hhead ih ih' =>
      obtain ⟨atoms, h⟩ := ih
      obtain ⟨atoms', h'⟩ := ih'
      exact ⟨_, h.append h' hhead⟩
  | literal s =>
      refine ⟨[.literal s.toList], readFrom_script s, fun more rest => rfl, fun rest _ hharmless => ?_⟩
      exact harmlessThroughout_cons.mpr ⟨harmless_literal _ _, hharmless⟩
  | param hname hparam => exact ⟨_, reading_param hname hparam⟩
  | field hcall hname hstack _ ih =>
      obtain ⟨atoms, h⟩ := ih
      exact ⟨_, h.field hcall hname hstack⟩

end Readings

end StampedPrograms.Script
