import Mathlib.Data.List.Forall2
import StampedPrograms.Proofs.Datum.Defects
import StampedPrograms.Proofs.Value.Names

/-!
What host data stands for, as a relation that says nothing about how it is found out. A number stands for itself,
where a zero loses its sign; a variant for its payload under its tag; a map for a record that has under each name
the last value given. The conversion gives a value exactly when the data is sound, that one and no other, and
where it fails it reports the first call that offends.
-/

namespace StampedPrograms

/-- A record in order that has under each name the last item given, and no other names. -/
structure Entries.Records {α : Type} (pairs entries : List (String × α)) : Prop where
  ascending : Ascending entries
  last : ∀ name, entries.lookup name = last? name pairs

theorem Entries.records_ofList {α : Type} (pairs : List (String × α)) : Records pairs (ofList pairs) :=
  ⟨ascending_ofList pairs, fun name => lookup_ofList name pairs⟩

theorem Entries.Records.eq_ofList {α : Type} {pairs entries : List (String × α)} (h : Records pairs entries) :
    entries = ofList pairs :=
  h.ascending.eq_of_lookup (ascending_ofList pairs) fun name => (h.last name).trans (lookup_ofList name pairs).symm

namespace Datum

/-- The names and values that calls in turn give, where `R` tells which data stands for which value. -/
inductive Gives (R : Datum → Value → Prop) : List (MapCall × Datum) → List (String × Value) → Prop where
  | nil : Gives R [] []
  | pair {key item : Datum} {name : String} {v : Value} {calls : List (MapCall × Datum)}
      {given : List (String × Value)} (spelled : Spells key name) (stands : R item v)
      (rest : Gives R calls given) : Gives R ((.key, key) :: (.value, item) :: calls) ((name, v) :: given)

/-- The data stands for the value. -/
inductive Denotes : Datum → Value → Prop where
  | absent : Denotes .absent .null
  | unit : Denotes .unit .null
  | bool (b : Bool) : Denotes (.bool b) (.bool b)
  | int {i : Int} (fits : Fits64 i) : Denotes (.int i) (.number (Binary64.ofInt i).unsignedZero)
  | single {bits : UInt32} (finite : Binary64.IsFiniteSingle bits) :
      Denotes (.single bits) (.number (Binary64.ofSingleBits bits).unsignedZero)
  | double {x : Binary64} (finite : x.IsFinite) : Denotes (.double x) (.number x.unsignedZero)
  | char (c : Char) : Denotes (.char c) (.string c.toString)
  | string (s : String) : Denotes (.string s) (.string s)
  | displayed (text : String) : Denotes (.displayed text) (.string text)
  | unitVariant (tag : String) : Denotes (.unitVariant tag) (.string tag)
  | wrapped {inner : Datum} {v : Value} (same : Denotes inner v) : Denotes (.wrapped inner) v
  | variant {tag : String} {payload : Datum} {v : Value} (held : Denotes payload v) :
      Denotes (.variant tag payload) (.map [(tag, v)])
  | seq {items : List Datum} {vs : List Value} (each : List.Forall₂ Denotes items vs) :
      Denotes (.seq items) (.list vs)
  | seqVariant {tag : String} {items : List Datum} {vs : List Value} (each : List.Forall₂ Denotes items vs) :
      Denotes (.seqVariant tag items) (.map [(tag, .list vs)])
  | map {calls : List (MapCall × Datum)} {given entries : List (String × Value)}
      (gives : Gives Denotes calls given) (records : Entries.Records given entries) :
      Denotes (.map calls) (.map entries)
  | record {fields : List (String × Datum)} {vs : List Value} {entries : List (String × Value)}
      (each : List.Forall₂ Denotes (fields.map Prod.snd) vs)
      (records : Entries.Records ((fields.map Prod.fst).zip vs) entries) : Denotes (.record fields) (.map entries)
  | recordVariant {tag : String} {fields : List (String × Datum)} {vs : List Value}
      {entries : List (String × Value)} (each : List.Forall₂ Denotes (fields.map Prod.snd) vs)
      (records : Entries.Records ((fields.map Prod.fst).zip vs) entries) :
      Denotes (.recordVariant tag fields) (.map [(tag, .map entries)])

/-! ### Failing computations -/

/-- A computation that fails with the first of these defects, and if there are none has such a result. -/
inductive Decided {α : Type} (R : α → Prop) : List Defect → Except Error α → Prop where
  | ok {a : α} (holds : R a) : Decided R [] (.ok a)
  | error (defect : Defect) (later : List Defect) : Decided R (defect :: later) (.error (.validation defect))

section

variable {α β : Type} {R S : α → Prop} {defects : List Defect} {x : Except Error α}

theorem Decided.imp (hx : Decided R defects x) (h : ∀ a, R a → S a) : Decided S defects x := by
  cases hx with
  | ok holds => exact .ok (h _ holds)
  | error defect later => exact .error defect later

theorem Decided.map {T : β → Prop} {f : α → β} (hx : Decided R defects x) (hf : ∀ a, R a → T (f a)) :
    Decided T defects (x >>= fun a => pure (f a)) := by
  cases hx with
  | ok holds => exact .ok (hf _ holds)
  | error defect later => exact .error defect later

/-- What is wrong with the first computation comes before what is wrong with the second. -/
theorem Decided.bind {T : β → Prop} {later : List Defect} {f : α → Except Error β} (hx : Decided R defects x)
    (hf : ∀ a, R a → Decided T later (f a)) : Decided T (defects ++ later) (x >>= f) := by
  cases hx with
  | ok holds => exact hf _ holds
  | error defect others => exact .error defect (others ++ later)

theorem Decided.holds (hx : Decided R defects x) {a : α} (h : x = .ok a) : R a := by
  cases hx with
  | ok holds => exact Except.ok.inj h ▸ holds
  | error defect later => cases h

theorem Decided.succeeds_iff (hx : Decided R defects x) : (∃ a, x = .ok a) ↔ defects = [] := by
  cases hx with
  | ok holds => exact iff_of_true ⟨_, rfl⟩ rfl
  | error defect later => exact iff_of_false (by rintro ⟨a, ⟨⟩⟩) (List.cons_ne_nil _ _)

theorem Decided.eq_error (hx : Decided R defects x) {e : Error} :
    x = .error e ↔ ∃ defect, defects.head? = some defect ∧ e = .validation defect := by
  cases hx with
  | ok holds => exact iff_of_false (by rintro ⟨⟩) (by rintro ⟨defect, ⟨⟩, -⟩)
  | error defect later =>
      constructor
      · rintro ⟨⟩
        exact ⟨defect, rfl, rfl⟩
      · rintro ⟨_, ⟨⟩, rfl⟩
        rfl

end

/-! ### Numbers and names -/

theorem decided_number {x : Binary64} {R : Value → Prop} (h : x.IsFinite → R (.number x.unsignedZero)) :
    Decided R (numberDefects x) (numberValue x) := by
  unfold numberDefects numberValue Value.ofBinary64
  split
  · next hfinite => exact .ok (h hfinite)
  · exact .error _ _

/-- Data that stands for a string spells it. -/
theorem denotes_string {d : Datum} {s : String} : Denotes d (.string s) ↔ Spells d s := by
  induction d using induction_children with
  | step d ih =>
      constructor
      · intro h
        cases h with
        | char c => exact .char c
        | string s => exact .string s
        | displayed => exact .displayed _
        | unitVariant => exact .unitVariant _
        | @wrapped inner _ same => exact .wrapped ((ih inner (List.mem_singleton_self inner)).mp same)
      · intro h
        cases h with
        | char c => exact .char c
        | string s => exact .string s
        | displayed => exact .displayed _
        | unitVariant => exact .unitVariant _
        | @wrapped inner _ same => exact .wrapped ((ih inner (List.mem_singleton_self inner)).mpr same)

theorem kind?_of_denotes {d : Datum} {v : Value} (h : Denotes d v) : d.kind? = some v.kind := by
  induction d using induction_children with
  | step d ih =>
      cases h with
      | @wrapped inner _ same => exact ih inner (List.mem_singleton_self inner) same
      | _ => rfl

/-- A key gives the text it spells. -/
theorem decided_name {key : Datum} (h : Decided (Denotes key) key.defects key.toValue) :
    Decided (Spells key) (key.defects ++ key.nameDefects) (key.toValue >>= keyName) := by
  refine h.bind fun v hv => ?_
  rw [nameDefects, kind?_of_denotes hv]
  cases v with
  | string s => exact .ok (denotes_string.mp hv)
  | _ => exact .error _ _

/-! ### Lists of data -/

theorem decided_items {items : List Datum}
    (h : ∀ item ∈ items, Decided (Denotes item) item.defects item.toValue) :
    Decided (List.Forall₂ Denotes items) (itemDefects items) (itemValues items) := by
  induction items with
  | nil => exact .ok .nil
  | cons item items ih =>
      obtain ⟨hitem, hitems⟩ := List.forall_mem_cons.mp h
      exact hitem.bind fun v hv => (ih hitems).map fun vs hvs => .cons hv hvs

theorem decided_fields {fields : List (String × Datum)}
    (h : ∀ item ∈ fields.map Prod.snd, Decided (Denotes item) item.defects item.toValue) :
    Decided (fun pairs => ∃ vs, List.Forall₂ Denotes (fields.map Prod.snd) vs ∧
      pairs = (fields.map Prod.fst).zip vs) (fieldDefects fields) (fieldValues fields) := by
  induction fields with
  | nil => exact .ok ⟨[], .nil, rfl⟩
  | cons field fields ih =>
      obtain ⟨name, item⟩ := field
      rw [List.map_cons, List.forall_mem_cons] at h
      refine h.1.bind fun v hv => (ih h.2).map ?_
      rintro _ ⟨vs, hvs, rfl⟩
      exact ⟨v :: vs, .cons hv hvs, rfl⟩

theorem mapEntries_key (entries : List (String × Value)) (key : Datum) (calls : List (MapCall × Datum)) :
    mapEntries entries none ((.key, key) :: calls) =
      (key.toValue >>= keyName) >>= fun name => mapEntries entries (some name) calls := by
  rw [mapEntries, bind_assoc]

theorem ofList_concat (given : List (String × Value)) (name : String) (v : Value) :
    Entries.insert name v (Entries.ofList given) = Entries.ofList (given ++ [(name, v)]) := by
  rw [Entries.ofList, Entries.ofList, List.foldl_append]
  rfl

/-- The entries of a map are those of what was given before and what these calls give. Between two pairs no key
waits, so the induction takes a key and a value at a time. -/
theorem decided_calls : ∀ (calls : List (MapCall × Datum)) (given : List (String × Value)),
    (∀ item ∈ calls.map Prod.snd, Decided (Denotes item) item.defects item.toValue) →
    Decided (fun entries => ∃ more, Gives Denotes calls more ∧ entries = Entries.ofList (given ++ more))
      (callDefects .value calls) (mapEntries (Entries.ofList given) none calls)
  | [], given, _ => .ok ⟨[], .nil, by rw [List.append_nil]⟩
  | (.value, _) :: _, _, _ => .error _ _
  | [(.key, key)], _, h => by
      rw [mapEntries_key, callDefects]
      exact (decided_name (h key (List.mem_cons_self ..))).bind fun _ _ => .error _ _
  | (.key, key) :: (.key, other) :: calls, _, h => by
      rw [mapEntries_key, callDefects]
      exact (decided_name (h key (List.mem_cons_self ..))).bind fun _ _ => .error _ _
  | (.key, key) :: (.value, item) :: calls, given, h => by
      simp only [List.map_cons, List.forall_mem_cons] at h
      obtain ⟨hkey, hitem, hcalls⟩ := h
      rw [mapEntries_key, callDefects]
      refine (decided_name hkey).bind fun name hname => ?_
      rw [mapEntries, callDefects]
      refine hitem.bind fun v hv => ?_
      rw [ofList_concat]
      have hrest := decided_calls calls (given ++ [(name, v)]) hcalls
      refine hrest.imp ?_
      rintro _ ⟨more, hmore, rfl⟩
      exact ⟨(name, v) :: more, .pair hname hv hmore, by rw [List.append_assoc, List.singleton_append]⟩

/-- Sound data is converted to what it stands for, and of other data the first offending call is reported. -/
theorem decided {d : Datum} (h : d.Fits) : Decided (Denotes d) d.defects d.toValue := by
  induction d using induction_children with
  | step d ih =>
      have hchildren : ∀ child ∈ d.children, Decided (Denotes child) child.defects child.toValue :=
        fun child hchild => ih child hchild ((fits_iff.mp h).2 child hchild)
      cases d with
      | absent => exact .ok .absent
      | unit => exact .ok .unit
      | bool b => exact .ok (.bool b)
      | int i =>
          have hfits : Fits64 i := (fits_iff.mp h).1
          have hvalue : toValue (.int i) = .ok (.number (Binary64.ofInt i).unsignedZero) :=
            numberValue_eq_ok.mpr ⟨Binary64.isFinite_ofInt hfits, rfl⟩
          rw [hvalue]
          exact .ok (.int hfits)
      | wideInt signed i => exact .error _ _
      | single bits => exact decided_number fun hfinite => .single ((Binary64.isFinite_ofSingleBits bits).mp hfinite)
      | double x => exact decided_number fun hfinite => .double hfinite
      | char c => exact .ok (.char c)
      | string s => exact .ok (.string s)
      | bytes content => exact .error _ _
      | displayed text => exact .ok (.displayed text)
      | wrapped inner => exact (hchildren inner (List.mem_singleton_self inner)).imp fun v hv => .wrapped hv
      | unitVariant tag => exact .ok (.unitVariant tag)
      | variant tag payload =>
          exact (hchildren payload (List.mem_singleton_self payload)).map fun v hv => .variant hv
      | seq items => exact (decided_items hchildren).map fun vs hvs => .seq hvs
      | seqVariant tag items => exact (decided_items hchildren).map fun vs hvs => .seqVariant hvs
      | map calls =>
          refine (decided_calls calls [] hchildren).map ?_
          rintro _ ⟨given, hgives, rfl⟩
          exact .map hgives (Entries.records_ofList given)
      | record fields =>
          refine (decided_fields hchildren).map ?_
          rintro _ ⟨vs, hvs, rfl⟩
          exact .record hvs (Entries.records_ofList _)
      | recordVariant tag fields =>
          refine (decided_fields hchildren).map ?_
          rintro _ ⟨vs, hvs, rfl⟩
          exact .recordVariant hvs (Entries.records_ofList _)
      | refused reason => exact .error _ _

/-! ### What is denoted is what comes out -/

theorem itemValues_of_denotes {items : List Datum} {vs : List Value} (each : List.Forall₂ Denotes items vs)
    (h : ∀ item ∈ items, ∀ v, Denotes item v → item.toValue = .ok v) : itemValues items = .ok vs := by
  induction each with
  | nil => rfl
  | @cons item v items vs hitem _ ih =>
      obtain ⟨hfirst, hrest⟩ := List.forall_mem_cons.mp h
      rw [itemValues, hfirst v hitem, ok_bind, ih hrest, ok_bind]
      rfl

theorem fieldValues_of_denotes {fields : List (String × Datum)} {vs : List Value}
    (each : List.Forall₂ Denotes (fields.map Prod.snd) vs)
    (h : ∀ item ∈ fields.map Prod.snd, ∀ v, Denotes item v → item.toValue = .ok v) :
    fieldValues fields = .ok ((fields.map Prod.fst).zip vs) := by
  induction fields generalizing vs with
  | nil => rfl
  | cons field fields ih =>
      obtain ⟨name, item⟩ := field
      rw [List.map_cons] at each h
      obtain ⟨v, rest, hitem, hfields, rfl⟩ := List.forall₂_cons_left_iff.mp each
      obtain ⟨hfirst, hrest⟩ := List.forall_mem_cons.mp h
      rw [fieldValues, hfirst v hitem, ok_bind, ih hfields hrest, ok_bind]
      rfl

theorem mapEntries_of_gives {calls : List (MapCall × Datum)} {more : List (String × Value)}
    (gives : Gives Denotes calls more) (given : List (String × Value))
    (h : ∀ item ∈ calls.map Prod.snd, ∀ v, Denotes item v → item.toValue = .ok v) :
    mapEntries (Entries.ofList given) none calls = .ok (Entries.ofList (given ++ more)) := by
  induction gives generalizing given with
  | nil =>
      rw [List.append_nil]
      rfl
  | @pair key item name v calls more spelled stands _ ih =>
      simp only [List.map_cons, List.forall_mem_cons] at h
      obtain ⟨hkey, hitem, hcalls⟩ := h
      rw [mapEntries, hkey _ (denotes_string.mpr spelled), ok_bind, keyName, ok_bind, mapEntries, hitem v stands,
        ok_bind, ofList_concat, ih (given ++ [(name, v)]) hcalls, List.append_assoc, List.singleton_append]

/-- Nothing comes out but what is denoted, so data stands for one value at most. -/
theorem toValue_of_denotes {d : Datum} {v : Value} (h : Denotes d v) : d.toValue = .ok v := by
  induction d using induction_children generalizing v with
  | step d ih =>
      cases h with
      | int fits => exact numberValue_eq_ok.mpr ⟨Binary64.isFinite_ofInt fits, rfl⟩
      | single finite => exact numberValue_eq_ok.mpr ⟨(Binary64.isFinite_ofSingleBits _).mpr finite, rfl⟩
      | double finite => exact numberValue_eq_ok.mpr ⟨finite, rfl⟩
      | @wrapped inner _ same => exact ih inner (List.mem_singleton_self inner) same
      | @variant tag payload v held =>
          rw [toValue, ih payload (List.mem_singleton_self payload) held]
          rfl
      | @seq items vs each =>
          rw [toValue, itemValues_of_denotes each ih]
          rfl
      | @seqVariant tag items vs each =>
          rw [toValue, itemValues_of_denotes each ih]
          rfl
      | @map calls given entries gives records =>
          have hentries : mapEntries [] none calls = .ok (Entries.ofList given) := mapEntries_of_gives gives [] ih
          rw [toValue, hentries, records.eq_ofList]
          rfl
      | @record fields vs entries each records =>
          rw [toValue, fieldValues_of_denotes each ih, records.eq_ofList]
          rfl
      | @recordVariant tag fields vs entries each records =>
          rw [toValue, fieldValues_of_denotes each ih, records.eq_ofList]
          rfl
      | _ => rfl

/-- Data is converted exactly when it is sound, then to the value it stands for, and otherwise the error is that of
the first call that offends. -/
theorem toValue_exact {d : Datum} (h : d.Fits) :
    ((∃ v, d.toValue = .ok v) ↔ d.Sound) ∧ (∀ v, d.toValue = .ok v ↔ Denotes d v) ∧
      ∀ e, d.toValue = .error e ↔ ∃ defect, d.defects.head? = some defect ∧ e = .validation defect := by
  have hdecided := decided h
  refine ⟨?_, fun v => ⟨hdecided.holds, toValue_of_denotes⟩, fun e => hdecided.eq_error⟩
  rw [← defects_eq_nil_iff]
  exact hdecided.succeeds_iff

/-- A map with one name given twice, first as a wrapped character and then as a tag. -/
def twiceGiven : Datum :=
  .map [(.key, .wrapped (.char 'k')), (.value, .int (-0x8000000000000000)), (.key, .unitVariant "k"),
    (.value, .variant "On" (.single 0x3fc00000))]

/-- A map with a key where a value is due. The key is none itself, and what comes after it is refused. -/
def twoKeys : Datum :=
  .map [(.key, .string "a"), (.key, .bytes [0xff]), (.value, .refused "late")]

theorem fits_twiceGiven : twiceGiven.Fits := by
  have hleast : FitsHere (.int (-0x8000000000000000)) := by
    unfold FitsHere
    decide
  have hchar : Fits (.char 'k') := fits_leaf trivial rfl
  have hkey : Fits (.wrapped (.char 'k')) := fits_iff.mpr ⟨trivial, by simpa [children] using hchar⟩
  have hsingle : Fits (.single 0x3fc00000) := fits_leaf trivial rfl
  have hvariant : Fits (.variant "On" (.single 0x3fc00000)) :=
    fits_iff.mpr ⟨trivial, by simpa [children] using hsingle⟩
  have htag : Fits (.unitVariant "k") := fits_leaf trivial rfl
  refine fits_iff.mpr ⟨trivial, ?_⟩
  simpa [twiceGiven, children] using ⟨hkey, fits_leaf hleast rfl, htag, hvariant⟩

theorem fits_twoKeys : twoKeys.Fits := by
  have htext : Fits (.string "a") := fits_leaf trivial rfl
  have hbytes : Fits (.bytes [0xff]) := fits_leaf trivial rfl
  have hrefused : Fits (.refused "late") := fits_leaf trivial rfl
  refine fits_iff.mpr ⟨trivial, ?_⟩
  simpa [twoKeys, children] using ⟨htext, hbytes, hrefused⟩

/-- The later of the two values stays, under its tag. Of three calls that offend the first one is reported. -/
theorem toValue_exact_twiceGiven :
    (twiceGiven.Fits ∧ twiceGiven.Sound ∧
      Denotes twiceGiven (.map [("k", .map [("On", .number (.ofBits 0x3ff8000000000000))])])) ∧
    twoKeys.Fits ∧ twoKeys.defects = [.keyBeforeValue, .unsupportedType .bytes, .reported "late"] ∧
      twoKeys.toValue = .error (.validation .keyBeforeValue) := by
  have hvalue : twiceGiven.toValue = .ok (.map [("k", .map [("On", .number (.ofBits 0x3ff8000000000000))])]) :=
    toOption_eq_some.mp (by decide +kernel)
  obtain ⟨hsound, hdenotes, -⟩ := toValue_exact fits_twiceGiven
  obtain ⟨-, -, herror⟩ := toValue_exact fits_twoKeys
  exact ⟨⟨fits_twiceGiven, hsound.mp ⟨_, hvalue⟩, (hdenotes _).mp hvalue⟩, fits_twoKeys, rfl,
    (herror _).mpr ⟨.keyBeforeValue, rfl, rfl⟩⟩

end Datum

end StampedPrograms
