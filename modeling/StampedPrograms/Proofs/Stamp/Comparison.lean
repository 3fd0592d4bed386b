import StampedPrograms.Stamp.Expression
import StampedPrograms.Stamp.Program
import StampedPrograms.Proofs.Datum
import StampedPrograms.Proofs.Stamp.Difference
import StampedPrograms.Proofs.Value.Names

/-!
What the comparison of two records tells. It goes through the fields of the first record and then through those
that only the second one has, and finds the first one with another text, but it passes over a null of the first
record that the second one lacks. Seen from the other side such a null is a difference, with null as both texts.
So the comparison tells whether two records are the same, unless a null on one side stands against nothing on the
other; between two envelopes of one kind that never happens.
-/

namespace StampedPrograms

namespace Value

/-- The values that are compared field by field: of documents that are objects, and of host data that comes out as a
map. -/
inductive IsRecord : Value → Prop where
  | map {entries : List (String × Value)} (canonical : Canonical (.map entries)) : IsRecord (.map entries)

/-- The canonical text of a field, if the record has it. -/
def fieldText? : Value → String → Option String
  | .map entries, name => (entries.lookup name).map text
  | _, _ => none

/-- A null of the first record that stands against nothing in the second one. -/
def Overlooked (expected actual : Value) (name : String) : Prop :=
  expected.fieldText? name = some "null" ∧ actual.fieldText? name = none

/-- A field in which no difference is seen: it has one text in both records, or neither has it, or it is
overlooked. -/
def PassedOver (expected actual : Value) (name : String) : Prop :=
  expected.fieldText? name = actual.fieldText? name ∨ Overlooked expected actual name

/-- The order of the comparison: the fields of the first record by name, then those that it lacks by name. -/
inductive Sooner (expected : Value) (name field : String) : Prop where
  | name (same : (expected.fieldText? name).isSome = (expected.fieldText? field).isSome) (lt : name < field)
  | present (has : (expected.fieldText? name).isSome = true) (lacks : expected.fieldText? field = none)

/-- A field as it is shown, with the text of null where it is missing. -/
def shown (expected actual : Value) (name : String) : Difference :=
  ⟨name, (expected.fieldText? name).getD "null", (actual.fieldText? name).getD "null"⟩

/-- The first field that is not passed over. -/
structure FirstFound (expected actual : Value) (found : Difference) : Prop where
  differs : ¬ PassedOver expected actual found.field
  first : ∀ name, Sooner expected name found.field → PassedOver expected actual name
  eq_shown : found = shown expected actual found.field

/-- The comparison tells whether two records are the same: nothing is found exactly if they have one text, what is
found is a field in which they differ and is shown with different texts, and it does not matter which of the two
comes first. -/
structure Decided (expected actual : Value) : Prop where
  verdict : expected.difference? actual = none ↔ expected.text = actual.text
  report : ∀ found, expected.difference? actual = some found →
    found.expected ≠ found.actual ∧ expected.fieldText? found.field ≠ actual.fieldText? found.field
  swap : expected.difference? actual = none ↔ actual.difference? expected = none

theorem text_inj {v w : Value} (hv : Canonical v) (hw : Canonical w) : v.text = w.text ↔ v = w :=
  ⟨fun h => eq_of_encode_eq hv hw (String.ofList_injective h), congrArg text⟩

theorem text_null : text .null = "null" :=
  rfl

theorem isRecord_of_kind {v : Value} (h : Canonical v) (hkind : v.kind = .map) : IsRecord v := by
  cases v with
  | map entries => exact .map h
  | _ => cases hkind

theorem isRecord_of_toValue {d : Datum} {v : Value} (h : d.toValue = .ok v) (hkind : v.kind = .map) : IsRecord v :=
  isRecord_of_kind (Datum.canonical_toValue d v h) hkind

theorem isRecord_ofJson (members : List (String × Json)) : IsRecord (ofJson (.object members)) :=
  isRecord_of_kind (canonical_ofJson _) rfl

theorem Overlooked.not_swapped {x y : Value} {name : String} (h : Overlooked x y name) : ¬ Overlooked y x name := by
  rintro ⟨hnull, -⟩
  rw [h.2] at hnull
  cases hnull

/-! ### The two passes -/

section Passes

variable {expected actual : List (String × Value)} {found : Difference} {name : String}

theorem Canonical.lookup (h : Canonical (.map expected)) {item : Value} (hitem : expected.lookup name = some item) :
    Canonical item :=
  h.of_mem_map _ (Entries.mem_of_lookup hitem)

/-- A field of the first record is passed over if the second one has it likewise, reading null for nothing. -/
theorem passedOver_of_lookup (hx : Canonical (.map expected)) (hy : Canonical (.map actual)) {want : Value}
    (h : expected.lookup name = some want) :
    PassedOver (.map expected) (.map actual) name ↔ (actual.lookup name).getD .null = want := by
  have hwant := hx.lookup h
  cases hgot : actual.lookup name with
  | none => simp [PassedOver, Overlooked, fieldText?, h, hgot, ← text_null, text_inj hwant .null, eq_comm]
  | some got => simp [PassedOver, Overlooked, fieldText?, h, hgot, text_inj hwant (hy.lookup hgot), eq_comm]

/-- No field that only the second record has is passed over, not even a null. -/
theorem passedOver_of_lookup_eq_none (h : expected.lookup name = none) :
    PassedOver (.map expected) (.map actual) name ↔ actual.lookup name = none := by
  cases hgot : actual.lookup name <;> simp [PassedOver, Overlooked, fieldText?, h, hgot]

theorem shown_of_lookup {want : Value} (h : expected.lookup name = some want) :
    shown (.map expected) (.map actual) name = ⟨name, want.text, ((actual.lookup name).getD .null).text⟩ := by
  cases hgot : actual.lookup name <;> simp [shown, fieldText?, h, hgot, text_null]

theorem shown_of_lookup_eq_none {got : Value} (h : expected.lookup name = none) (hgot : actual.lookup name = some got) :
    shown (.map expected) (.map actual) name = ⟨name, Value.null.text, got.text⟩ := by
  simp [shown, fieldText?, h, hgot, text_null]

/-- The first pass goes through the fields of the first record. -/
theorem differingField?_eq_none_iff (hx : Canonical (.map expected)) (hy : Canonical (.map actual)) :
    differingField? actual expected = none ↔
      ∀ name, (expected.lookup name).isSome = true → PassedOver (.map expected) (.map actual) name := by
  rw [differingField?_eq_none]
  constructor
  · intro hsame name hhas
    obtain ⟨want, hlookup⟩ := Option.isSome_iff_exists.mp hhas
    rw [passedOver_of_lookup hx hy hlookup]
    exact hsame _ (Entries.mem_of_lookup hlookup)
  · intro hpassed entry hentry
    have hlookup := Entries.lookup_of_mem hx.ascending.nodup hentry
    exact (passedOver_of_lookup hx hy hlookup).mp (hpassed entry.1 (by simp [hlookup]))

/-- The second pass sees every field that the first record lacks. -/
theorem extraField?_eq_none_iff (hy : Canonical (.map actual)) :
    extraField? expected actual = none ↔
      ∀ name, expected.lookup name = none → PassedOver (.map expected) (.map actual) name := by
  rw [extraField?_eq_none]
  constructor
  · intro hhas name hlacks
    rw [passedOver_of_lookup_eq_none hlacks]
    cases hgot : actual.lookup name with
    | none => rfl
    | some got =>
        have hpresent := hhas _ (Entries.mem_of_lookup hgot)
        simp [hlacks] at hpresent
  · intro hpassed entry hentry
    have hlookup := Entries.lookup_of_mem hy.ascending.nodup hentry
    cases hlacks : expected.lookup entry.1 with
    | some _ => rfl
    | none =>
        have hgot := (passedOver_of_lookup_eq_none hlacks).mp (hpassed entry.1 hlacks)
        rw [hlookup] at hgot
        cases hgot

theorem differingField?_eq_some_iff (hx : Canonical (.map expected)) (hy : Canonical (.map actual)) :
    differingField? actual expected = some found ↔
      FirstFound (.map expected) (.map actual) found ∧ (expected.lookup found.field).isSome = true := by
  rw [differingField?_eq_find?, Option.map_eq_some_iff]
  constructor
  · rintro ⟨⟨name, want⟩, hfind, rfl⟩
    obtain ⟨hentry, hdiffers, hfirst⟩ := hx.ascending.find?_eq_some_iff.mp hfind
    have hlookup := Entries.lookup_of_mem hx.ascending.nodup hentry
    refine ⟨⟨?_, fun other hsooner => ?_, (shown_of_lookup hlookup).symm⟩, by simp [hlookup]⟩
    · rw [passedOver_of_lookup hx hy hlookup]
      exact of_decide_eq_true hdiffers
    · cases hsooner with
      | name same lt =>
          obtain ⟨item, hitem⟩ : ∃ item, expected.lookup other = some item := by
            simpa [fieldText?, hlookup, Option.isSome_iff_exists] using same
          rw [passedOver_of_lookup hx hy hitem]
          simpa using hfirst _ (Entries.mem_of_lookup hitem) lt
      -- Nothing comes before a field of the first record but other fields of it.
      | present _ lacks => simp [fieldText?, hlookup] at lacks
  · rintro ⟨hfound, hhas⟩
    obtain ⟨want, hlookup⟩ := Option.isSome_iff_exists.mp hhas
    refine ⟨(found.field, want), hx.ascending.find?_eq_some_iff.mpr ⟨Entries.mem_of_lookup hlookup, ?_, ?_⟩, ?_⟩
    · have hdiffers := hfound.differs
      rw [passedOver_of_lookup hx hy hlookup] at hdiffers
      exact decide_eq_true hdiffers
    · rintro ⟨other, item⟩ hentry hlt
      have hitem := Entries.lookup_of_mem hx.ascending.nodup hentry
      have hsame := hfound.first other (.name (by simp [fieldText?, hlookup, hitem]) hlt)
      simpa using (passedOver_of_lookup hx hy hitem).mp hsame
    · exact (shown_of_lookup hlookup).symm.trans hfound.eq_shown.symm

/-- The second pass is made if the first one finds nothing, so its fields come after those of the first record. -/
theorem extraField?_eq_some_iff (hx : Canonical (.map expected)) (hy : Canonical (.map actual)) :
    differingField? actual expected = none ∧ extraField? expected actual = some found ↔
      FirstFound (.map expected) (.map actual) found ∧ expected.lookup found.field = none := by
  rw [differingField?_eq_none_iff hx hy, extraField?_eq_find?, Option.map_eq_some_iff]
  constructor
  · rintro ⟨hsame, ⟨name, got⟩, hfind, rfl⟩
    obtain ⟨hentry, hlacks, hfirst⟩ := hy.ascending.find?_eq_some_iff.mp hfind
    have hlacks := Option.isNone_iff_eq_none.mp hlacks
    have hlookup := Entries.lookup_of_mem hy.ascending.nodup hentry
    refine ⟨⟨?_, fun other hsooner => ?_, (shown_of_lookup_eq_none hlacks hlookup).symm⟩, hlacks⟩
    · simp [passedOver_of_lookup_eq_none hlacks, hlookup]
    · cases hother : expected.lookup other with
      | some item => exact hsame other (by simp [hother])
      | none =>
          rw [passedOver_of_lookup_eq_none hother]
          cases hsooner with
          | name _ lt =>
              cases hitem : actual.lookup other with
              | none => rfl
              | some item =>
                  have hpresent := hfirst _ (Entries.mem_of_lookup hitem) lt
                  simp [hother] at hpresent
          | present has _ => simp [fieldText?, hother] at has
  · rintro ⟨hfound, hlacks⟩
    have hdiffers := hfound.differs
    rw [passedOver_of_lookup_eq_none hlacks] at hdiffers
    obtain ⟨got, hlookup⟩ := Option.ne_none_iff_exists'.mp hdiffers
    refine ⟨fun other hhas => ?_, (found.field, got),
      hy.ascending.find?_eq_some_iff.mpr ⟨Entries.mem_of_lookup hlookup, by simp [hlacks], ?_⟩, ?_⟩
    · exact hfound.first other (.present (by simp [fieldText?, hhas]) (by simp [fieldText?, hlacks]))
    · rintro ⟨other, item⟩ hentry hlt
      have hitem := Entries.lookup_of_mem hy.ascending.nodup hentry
      cases hother : expected.lookup other with
      | some _ => rfl
      | none =>
          have hsame := hfound.first other (.name (by simp [fieldText?, hlacks, hother]) hlt)
          simp [passedOver_of_lookup_eq_none hother, hitem] at hsame
    · exact (shown_of_lookup_eq_none hlacks hlookup).symm.trans hfound.eq_shown.symm

end Passes

/-! ### The comparison -/

section Records

variable {x y : Value} {found : Difference}

theorem difference?_eq_some_iff (hx : IsRecord x) (hy : IsRecord y) :
    x.difference? y = some found ↔ FirstFound x y found := by
  obtain @⟨expected, hx⟩ := hx
  obtain @⟨actual, hy⟩ := hy
  rw [difference?, Option.or_eq_some_iff, differingField?_eq_some_iff hx hy, extraField?_eq_some_iff hx hy,
    ← and_or_left]
  -- The two passes divide the fields by whether the first record has them.
  cases expected.lookup found.field <;> simp

theorem difference?_eq_none_iff (hx : IsRecord x) (hy : IsRecord y) :
    x.difference? y = none ↔ ∀ name, PassedOver x y name := by
  obtain @⟨expected, hx⟩ := hx
  obtain @⟨actual, hy⟩ := hy
  rw [difference?, Option.or_eq_none_iff, differingField?_eq_none_iff hx hy, extraField?_eq_none_iff hy]
  constructor
  · rintro ⟨hpresent, hlacking⟩ name
    cases hlookup : expected.lookup name with
    | some _ => exact hpresent name (by simp [hlookup])
    | none => exact hlacking name hlookup
  · intro hpassed
    exact ⟨fun name _ => hpassed name, fun name _ => hpassed name⟩

/-- A record is told by the texts of its fields. -/
theorem text_eq_iff_fieldText? (hx : IsRecord x) (hy : IsRecord y) :
    x.text = y.text ↔ ∀ name, x.fieldText? name = y.fieldText? name := by
  obtain @⟨expected, hx⟩ := hx
  obtain @⟨actual, hy⟩ := hy
  rw [text_inj hx hy]
  refine ⟨fun h name => h ▸ rfl, fun h => congrArg map ?_⟩
  refine hx.ascending.eq_of_lookup hy.ascending fun name => ?_
  have htext : (expected.lookup name).map text = (actual.lookup name).map text := h name
  cases hwant : expected.lookup name with
  | none =>
      rw [hwant] at htext
      exact (Option.map_eq_none_iff.mp htext.symm).symm
  | some want =>
      rw [hwant] at htext
      obtain ⟨got, hgot, hsame⟩ := Option.map_eq_some_iff.mp htext.symm
      rw [hgot, (text_inj (hy.lookup hgot) (hx.lookup hwant)).mp hsame]

/-- A null that is overlooked from one side is found from the other. -/
theorem text_eq_iff_difference?_eq_none (hx : IsRecord x) (hy : IsRecord y) :
    x.text = y.text ↔ x.difference? y = none ∧ y.difference? x = none := by
  rw [text_eq_iff_fieldText? hx hy, difference?_eq_none_iff hx hy, difference?_eq_none_iff hy hx]
  constructor
  · intro hsame
    exact ⟨fun name => .inl (hsame name), fun name => .inl (hsame name).symm⟩
  · rintro ⟨hpassed, hpassed'⟩ name
    -- The null would have to stand on the one side and be missing on it.
    rcases hpassed name with hsame | hoverlooked
    · exact hsame
    rcases hpassed' name with hsame | hoverlooked'
    · exact hsame.symm
    · exact absurd hoverlooked' hoverlooked.not_swapped

/-- The texts that are shown are the same for nothing in the first record against a null in the second one. -/
theorem FirstFound.texts_eq_iff (h : FirstFound x y found) :
    found.expected = found.actual ↔ Overlooked y x found.field := by
  have hdiffers := h.differs
  rw [PassedOver, Overlooked] at hdiffers
  have hexpected : found.expected = (x.fieldText? found.field).getD "null" := congrArg Difference.expected h.eq_shown
  have hactual : found.actual = (y.fieldText? found.field).getD "null" := congrArg Difference.actual h.eq_shown
  rw [hexpected, hactual, Overlooked]
  generalize x.fieldText? found.field = want at *
  generalize y.fieldText? found.field = got at *
  cases want <;> cases got <;> simp_all [eq_comm]

/-- Where the comparison goes wrong: nothing is found in different records, or a null against nothing is found. -/
theorem decided_iff (hx : IsRecord x) (hy : IsRecord y) :
    Decided x y ↔ x.text = y.text ∨ ∃ found, x.difference? y = some found ∧ ¬ Overlooked y x found.field := by
  constructor
  · intro h
    cases hdifference : x.difference? y with
    | none => exact .inl (h.verdict.mp hdifference)
    | some found =>
        refine .inr ⟨found, rfl, ?_⟩
        rw [← ((difference?_eq_some_iff hx hy).mp hdifference).texts_eq_iff]
        exact (h.report found hdifference).1
  · rintro (hsame | ⟨found, hfound, hseen⟩)
    · obtain ⟨hnone, hnone'⟩ := (text_eq_iff_difference?_eq_none hx hy).mp hsame
      exact ⟨by simp [hnone, hsame], by simp [hnone], by simp [hnone, hnone']⟩
    · -- The field that is found is not passed over from the other side either, so something is found there too.
      have hfirst := (difference?_eq_some_iff hx hy).mp hfound
      have hdiffers : x.fieldText? found.field ≠ y.fieldText? found.field := fun h => hfirst.differs (.inl h)
      have hne : x.text ≠ y.text := fun h => hdiffers ((text_eq_iff_fieldText? hx hy).mp h found.field)
      have hback : y.difference? x ≠ none := by
        rw [Ne, difference?_eq_none_iff hy hx]
        intro hpassed
        rcases hpassed found.field with hsame | hoverlooked
        · exact hdiffers hsame.symm
        · exact hseen hoverlooked
      refine ⟨by simp [hfound, hne], fun other hother => ?_, by simp [hfound, hback]⟩
      rw [hfound] at hother
      cases hother
      exact ⟨fun htexts => hseen (hfirst.texts_eq_iff.mp htexts), hdiffers⟩

theorem decided_of_not_overlooked (hx : IsRecord x) (hy : IsRecord y)
    (h : ∀ name, ¬ Overlooked x y name ∧ ¬ Overlooked y x name) : Decided x y := by
  rw [decided_iff hx hy]
  cases hdifference : x.difference? y with
  | none =>
      refine .inl ((text_eq_iff_fieldText? hx hy).mpr fun name => ?_)
      exact ((difference?_eq_none_iff hx hy).mp hdifference name).resolve_right (h name).1
  | some found => exact .inr ⟨found, rfl, (h found.field).2⟩

end Records

/-- Records with the same names have no field that only one of them has. -/
theorem decided_of_names {pairs others : List (String × Json)} (hnames : pairs.map Prod.fst = others.map Prod.fst) :
    Decided (ofJson (.ofPairs pairs)) (ofJson (.ofPairs others)) := by
  have hhas (pairs : List (String × Json)) (name : String) :
      ((ofJson (.ofPairs pairs)).fieldText? name).isSome = true ↔ name ∈ pairs.map Prod.fst := by
    rw [ofJson_ofPairs, ofPairs, fieldText?, Option.isSome_map, Entries.lookup_ofList_isSome_iff,
      Entries.names_mapItems]
  have hboth (pairs others : List (String × Json)) (hnames : pairs.map Prod.fst = others.map Prod.fst)
      (name : String) : ¬ Overlooked (ofJson (.ofPairs pairs)) (ofJson (.ofPairs others)) name := by
    rintro ⟨hnull, hlacks⟩
    have hname := (hhas pairs name).mp (by simp [hnull])
    rw [hnames, ← hhas others, hlacks] at hname
    cases hname
  exact decided_of_not_overlooked (isRecord_ofJson _) (isRecord_ofJson _) fun name =>
    ⟨hboth pairs others hnames name, hboth others pairs hnames.symm name⟩

/-- The comparison finds the first field that is not passed over, and nothing if all fields are passed over; what it
finds is shown with one text twice exactly if it is a null against nothing; and two records are the same exactly if
nothing is found from either side. It decides a pair of records exactly if they are the same or it finds something
else than a null against nothing, so wherever no null stands against nothing, and for any two envelopes of a kind. -/
theorem firstFound_and_decided_iff {x y : Value} (hx : IsRecord x) (hy : IsRecord y) :
    (∀ found, x.difference? y = some found ↔ FirstFound x y found) ∧
      (x.difference? y = none ↔ ∀ name, PassedOver x y name) ∧
      (∀ found, x.difference? y = some found → (found.expected = found.actual ↔ Overlooked y x found.field)) ∧
      (x.text = y.text ↔ x.difference? y = none ∧ y.difference? x = none) ∧
      (Decided x y ↔ x.text = y.text ∨ ∃ found, x.difference? y = some found ∧ ¬ Overlooked y x found.field) ∧
      ((∀ name, ¬ Overlooked x y name ∧ ¬ Overlooked y x name) → Decided x y) ∧
      (∀ a b : ProgramEnvelope, x = canonicalValue a → y = canonicalValue b → Decided x y) ∧
      ∀ a b : ExpressionEnvelope, x = canonicalValue a → y = canonicalValue b → Decided x y := by
  have hfound (found : Difference) : x.difference? y = some found ↔ FirstFound x y found :=
    difference?_eq_some_iff hx hy
  refine ⟨hfound, difference?_eq_none_iff hx hy, fun found h => ((hfound found).mp h).texts_eq_iff,
    text_eq_iff_difference?_eq_none hx hy, decided_iff hx hy, decided_of_not_overlooked hx hy, ?_, ?_⟩
  · rintro a b rfl rfl
    exact decided_of_names rfl
  · rintro a b rfl rfl
    exact decided_of_names rfl

/-- A null against nothing: from its own side it is not found, from the other side it is found with one text twice.
Before another field it does no harm, and neither does a null against another item. -/
theorem firstFound_and_decided_iff_null :
    let blank := ofJson (.object [("a", .null)])
    let empty := ofJson (.object [])
    let other := ofJson (.object [("b", .bool true)])
    let flag := ofJson (.object [("a", .bool false)])
    (IsRecord blank ∧ IsRecord empty ∧ IsRecord other ∧ IsRecord flag) ∧
      (blank.difference? empty = none ∧ blank.text ≠ empty.text ∧ ¬ Decided blank empty) ∧
      (empty.difference? blank = some ⟨"a", "null", "null"⟩ ∧ FirstFound empty blank ⟨"a", "null", "null"⟩ ∧
        ¬ Decided empty blank) ∧
      (Overlooked blank other "a" ∧ Decided blank other) ∧
      (∀ name, ¬ Overlooked blank flag name ∧ ¬ Overlooked flag blank name) ∧ Decided blank flag := by
  intro blank empty other flag
  have hblank : IsRecord blank := isRecord_of_toValue (d := .record [("a", .absent)]) rfl rfl
  have hempty : IsRecord empty := isRecord_ofJson []
  have hother : IsRecord other := isRecord_ofJson _
  have hflag : IsRecord flag := isRecord_ofJson _
  have hnone : blank.difference? empty = none := rfl
  have hfound : empty.difference? blank = some ⟨"a", "null", "null"⟩ := rfl
  have hne : blank.text ≠ empty.text := by decide
  obtain ⟨hfirst, -⟩ := firstFound_and_decided_iff hempty hblank
  obtain ⟨-, -, -, -, hdecided, -⟩ := firstFound_and_decided_iff hblank hother
  obtain ⟨-, -, -, -, -, hsufficient, -⟩ := firstFound_and_decided_iff hblank hflag
  have hneither (name : String) : ¬ Overlooked blank flag name ∧ ¬ Overlooked flag blank name := by
    by_cases hname : name = "a"
    · subst hname
      exact ⟨fun h => absurd h.2 (by decide), fun h => absurd h.2 (by decide)⟩
    · have hlacks (item : Json) : (ofJson (.object [("a", item)])).fieldText? name = none := by
        show ([("a", ofJson item)].lookup name).map text = none
        rw [List.lookup_cons, beq_eq_false_iff_ne.mpr hname]
        rfl
      simp [Overlooked, blank, flag, hlacks]
  refine ⟨⟨hblank, hempty, hother, hflag⟩, ⟨hnone, hne, fun h => hne (h.verdict.mp hnone)⟩,
    ⟨hfound, (hfirst _).mp hfound, fun h => (h.report _ hfound).1 rfl⟩, ⟨⟨rfl, rfl⟩, ?_⟩, hneither,
    hsufficient hneither⟩
  refine hdecided.mpr (.inr ⟨⟨"b", "null", "true"⟩, rfl, ?_⟩)
  rintro ⟨hnull, -⟩
  exact absurd hnull (by decide)

end Value

end StampedPrograms
