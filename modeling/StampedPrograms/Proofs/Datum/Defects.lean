import StampedPrograms.Proofs.Datum

/-!
What can be wrong with host data. Data is sound when neither it nor anything in it is of a type that canonical
values have no place for, when no number in it is infinite or no number at all, and when all maps in it are
handed over as keys and values in turn, with texts as keys. The calls that offend against this are listed in
the order in which they are made, and there are none exactly when the data is sound.
-/

namespace StampedPrograms

namespace Binary64

/-- A single is finite when its exponent field is not full. -/
def IsFiniteSingle (bits : UInt32) : Prop :=
  bits.toNat / 0x800000 % 0x100 ≠ 0xff

theorem isFinite_ofQuotient_one {num : Nat} (h : num.log2 < 2000) (negative : Bool) :
    (ofQuotient negative num 1).IsFinite := by
  show nearest num 1 < infinite
  calc nearest num 1 ≤ (num.log2 - 52 + 2) * leadingBit := nearest_one_le num
    _ ≤ 2000 * leadingBit := Nat.mul_le_mul_right leadingBit (by omega)
    _ < infinite := by decide

theorem log2_shiftLeft_lt {n bound : Nat} (h : n < 2 ^ bound) (hbound : 0 < bound) (places : Nat) :
    (n <<< places).log2 < bound + places := by
  by_cases hzero : n = 0
  · rw [hzero, Nat.zero_shiftLeft, Nat.log2_zero]
    omega
  · have hlog : n.log2 < bound := (Nat.log2_lt hzero).mpr h
    rw [log2_shiftLeft hzero]
    omega

/-- Widening a single keeps it finite or not. -/
theorem isFinite_ofSingleBits (bits : UInt32) : (ofSingleBits bits).IsFinite ↔ IsFiniteSingle bits := by
  unfold ofSingleBits IsFiniteSingle
  dsimp only
  split
  · next hfull =>
      refine iff_of_false ?_ fun h => h hfull
      split
      · exact Nat.lt_irrefl infinite
      · exact Nat.not_lt_of_le (Nat.le_succ infinite)
  · next hother =>
      refine iff_of_true ?_ hother
      have hexponent : bits.toNat / 0x800000 % 0x100 < 0x100 := Nat.mod_lt _ (by decide)
      generalize bits.toNat / 0x800000 % 0x100 = exponent at hexponent ⊢
      split
      · have hfraction : bits.toNat % 0x800000 < 2 ^ 23 := Nat.mod_lt _ (by decide)
        have hlog := log2_shiftLeft_lt hfraction (by decide) 925
        exact isFinite_ofQuotient_one (Nat.lt_trans hlog (by decide)) _
      · have hdigits : 0x800000 + bits.toNat % 0x800000 < 2 ^ 24 := by omega
        have hlog := log2_shiftLeft_lt hdigits (by decide) (exponent + 924)
        exact isFinite_ofQuotient_one (Nat.lt_of_lt_of_le hlog (by omega)) _

end Binary64

namespace Datum

/-! ### Parts -/

/-- The data that stands directly in a piece of data, in the order of the calls. -/
def children : Datum → List Datum
  | .wrapped inner => [inner]
  | .variant _ payload => [payload]
  | .seq items => items
  | .seqVariant _ items => items
  | .map calls => calls.map Prod.snd
  | .record fields => fields.map Prod.snd
  | .recordVariant _ fields => fields.map Prod.snd
  | _ => []

theorem sizeOf_lt_of_mem_children {d child : Datum} (h : child ∈ d.children) : sizeOf child < sizeOf d := by
  cases d with
  | wrapped inner =>
      cases List.mem_singleton.mp h
      simp only [wrapped.sizeOf_spec]
      omega
  | variant tag payload =>
      cases List.mem_singleton.mp h
      simp only [variant.sizeOf_spec]
      omega
  | seq items =>
      have hlt : sizeOf child < sizeOf items := List.sizeOf_lt_of_mem h
      simp only [seq.sizeOf_spec]
      omega
  | seqVariant tag items =>
      have hlt : sizeOf child < sizeOf items := List.sizeOf_lt_of_mem h
      simp only [seqVariant.sizeOf_spec]
      omega
  | map calls =>
      obtain ⟨⟨turn, item⟩, hcall, rfl⟩ := List.mem_map.mp h
      have hlt := List.sizeOf_lt_of_mem hcall
      simp only [Prod.mk.sizeOf_spec, map.sizeOf_spec] at hlt ⊢
      omega
  | record fields =>
      obtain ⟨⟨name, item⟩, hfield, rfl⟩ := List.mem_map.mp h
      have hlt := List.sizeOf_lt_of_mem hfield
      simp only [Prod.mk.sizeOf_spec, record.sizeOf_spec] at hlt ⊢
      omega
  | recordVariant tag fields =>
      obtain ⟨⟨name, item⟩, hfield, rfl⟩ := List.mem_map.mp h
      have hlt := List.sizeOf_lt_of_mem hfield
      simp only [Prod.mk.sizeOf_spec, recordVariant.sizeOf_spec] at hlt ⊢
      omega
  | _ => exact absurd h List.not_mem_nil

/-- Induction over data, with the property for all direct parts. -/
theorem induction_children {P : Datum → Prop} (step : ∀ d, (∀ child ∈ d.children, P child) → P d)
    (d : Datum) : P d :=
  step d fun child _hchild => induction_children step child
termination_by sizeOf d
decreasing_by exact sizeOf_lt_of_mem_children _hchild

/-- The part is this data or stands in it, at any depth. -/
inductive Contains : Datum → Datum → Prop where
  | self (d : Datum) : Contains d d
  | inside {d child part : Datum} (direct : child ∈ d.children) (rest : Contains child part) : Contains d part

/-- A property of all parts is one of the data itself and of all parts of its direct parts. -/
theorem forall_contains {P : Datum → Prop} {d : Datum} :
    (∀ part, d.Contains part → P part) ↔
      P d ∧ ∀ child ∈ d.children, ∀ part, child.Contains part → P part := by
  constructor
  · intro h
    exact ⟨h d (.self d), fun child hchild part hpart => h part (.inside hchild hpart)⟩
  · rintro ⟨hself, hinside⟩ part hpart
    cases hpart with
    | self => exact hself
    | inside direct rest => exact hinside _ direct part rest

/-! ### Soundness -/

/-- The data is a text, however often it is wrapped. -/
inductive Spells : Datum → String → Prop where
  | string (s : String) : Spells (.string s) s
  | char (c : Char) : Spells (.char c) c.toString
  | displayed (text : String) : Spells (.displayed text) text
  | unitVariant (tag : String) : Spells (.unitVariant tag) tag
  | wrapped {inner : Datum} {text : String} (same : Spells inner text) : Spells (.wrapped inner) text

/-- Keys and values in turn, a key first and no key left over. -/
inductive InTurn : List MapCall → Prop where
  | nil : InTurn []
  | pair {calls : List MapCall} (rest : InTurn calls) : InTurn (.key :: .value :: calls)

/-- What a piece of data has to be, its parts apart. -/
def SoundHere : Datum → Prop
  | .wideInt _ _ => False
  | .bytes _ => False
  | .refused _ => False
  | .single bits => Binary64.IsFiniteSingle bits
  | .double x => x.IsFinite
  | .map calls => InTurn (calls.map Prod.fst) ∧ ∀ key, (MapCall.key, key) ∈ calls → ∃ text, Spells key text
  | _ => True

/-- The data and everything in it is sound. -/
def Sound (d : Datum) : Prop :=
  ∀ part, d.Contains part → part.SoundHere

theorem sound_iff {d : Datum} : d.Sound ↔ d.SoundHere ∧ ∀ child ∈ d.children, child.Sound :=
  forall_contains

/-- An integer that is not handed over as a wide one has at most 64 bits. -/
def FitsHere : Datum → Prop
  | .int i => Fits64 i
  | _ => True

/-- All integers in the data that are not handed over as wide ones have at most 64 bits. -/
def Fits (d : Datum) : Prop :=
  ∀ part, d.Contains part → part.FitsHere

theorem fits_iff {d : Datum} : d.Fits ↔ d.FitsHere ∧ ∀ child ∈ d.children, child.Fits :=
  forall_contains

theorem fits_leaf {d : Datum} (h : d.FitsHere) (hchildren : d.children = []) : d.Fits :=
  fits_iff.mpr ⟨h, by simp [hchildren]⟩

/-! ### Offending calls -/

/-- The kind of value that data of this form stands for, if it stands for any. -/
def kind? : Datum → Option Value.Kind
  | .absent => some .null
  | .unit => some .null
  | .bool _ => some .bool
  | .int _ => some .number
  | .wideInt _ _ => none
  | .single _ => some .number
  | .double _ => some .number
  | .char _ => some .string
  | .string _ => some .string
  | .bytes _ => none
  | .displayed _ => some .string
  | .wrapped inner => inner.kind?
  | .unitVariant _ => some .string
  | .variant _ _ => some .map
  | .seq _ => some .list
  | .seqVariant _ _ => some .map
  | .map _ => some .map
  | .record _ => some .map
  | .recordVariant _ _ => some .map
  | .refused _ => none

def numberDefects (x : Binary64) : List Defect :=
  if x.IsFinite then [] else [.nonFiniteDatum x]

/-- A key that stands for a value has to stand for a string. -/
def nameDefects (key : Datum) : List Defect :=
  match key.kind? with
  | none => []
  | some .string => []
  | some kind => [.keyNotString kind]

mutual

/-- What is wrong with each of the calls that offend, in the order of the calls. A call that gives a key is looked
at before the key, if a key was the last to be given, and after it, for what the key stands for. -/
def defects : Datum → List Defect
  | .wideInt signed _ => [.unsupportedType (if signed then .signed128 else .unsigned128)]
  | .bytes _ => [.unsupportedType .bytes]
  | .refused reason => [.reported reason]
  | .single bits => numberDefects (.ofSingleBits bits)
  | .double x => numberDefects x
  | .wrapped inner => defects inner
  | .variant _ payload => defects payload
  | .seq items => itemDefects items
  | .seqVariant _ items => itemDefects items
  | .map calls => callDefects .value calls
  | .record fields => fieldDefects fields
  | .recordVariant _ fields => fieldDefects fields
  | _ => []

def itemDefects : List Datum → List Defect
  | [] => []
  | item :: items => defects item ++ itemDefects items

def fieldDefects : List (String × Datum) → List Defect
  | [] => []
  | (_, item) :: fields => defects item ++ fieldDefects fields

/-- The defects of calls on an open map, from what was given last. -/
def callDefects : (last : MapCall) → List (MapCall × Datum) → List Defect
  | .value, [] => []
  | .key, [] => [.danglingKey]
  | .value, (.key, key) :: calls => defects key ++ nameDefects key ++ callDefects .key calls
  | .key, (.key, key) :: calls => .keyBeforeValue :: (defects key ++ nameDefects key ++ callDefects .key calls)
  | .key, (.value, item) :: calls => defects item ++ callDefects .value calls
  | .value, (.value, item) :: calls => .valueBeforeKey :: (defects item ++ callDefects .value calls)

end

theorem numberDefects_eq_nil {x : Binary64} : numberDefects x = [] ↔ x.IsFinite := by
  unfold numberDefects
  split
  · next h => exact iff_of_true rfl h
  · next h => exact iff_of_false (List.cons_ne_nil _ _) h

/-- Data that stands for a string is a text, and no other data is. -/
theorem kind?_eq_string {d : Datum} : d.kind? = some .string ↔ ∃ text, Spells d text := by
  induction d using induction_children with
  | step d ih =>
      cases d with
      | wrapped inner =>
          rw [kind?, ih inner (List.mem_singleton_self inner)]
          constructor
          · rintro ⟨text, h⟩
            exact ⟨text, .wrapped h⟩
          · rintro ⟨text, ⟨⟩⟩
            exact ⟨text, ‹_›⟩
      | string s => exact iff_of_true rfl ⟨s, .string s⟩
      | char c => exact iff_of_true rfl ⟨c.toString, .char c⟩
      | displayed text => exact iff_of_true rfl ⟨text, .displayed text⟩
      | unitVariant tag => exact iff_of_true rfl ⟨tag, .unitVariant tag⟩
      | _ => exact iff_of_false (by simp [kind?]) (by rintro ⟨text, ⟨⟩⟩)

/-- What stands for no value is wrong by itself. -/
theorem defects_ne_nil_of_kind? {d : Datum} (h : d.kind? = none) : d.defects ≠ [] := by
  induction d using induction_children with
  | step d ih =>
      cases d with
      | wrapped inner => exact ih inner (List.mem_singleton_self inner) h
      | wideInt signed i => exact List.cons_ne_nil _ _
      | bytes content => exact List.cons_ne_nil _ _
      | refused reason => exact List.cons_ne_nil _ _
      | _ => cases h

/-- Nothing is wrong with a key that is sound and a text. -/
theorem key_defects_eq_nil {key : Datum} :
    key.defects ++ nameDefects key = [] ↔ key.defects = [] ∧ ∃ text, Spells key text := by
  rw [List.append_eq_nil_iff, ← kind?_eq_string]
  refine and_congr_right fun hdefects => ?_
  rw [nameDefects]
  cases hkind : key.kind? with
  | none => exact absurd hdefects (defects_ne_nil_of_kind? hkind)
  | some kind => cases kind <;> simp

theorem itemDefects_eq_nil {items : List Datum} : itemDefects items = [] ↔ ∀ item ∈ items, item.defects = [] := by
  induction items with
  | nil => simp [itemDefects]
  | cons item items ih => rw [itemDefects, List.append_eq_nil_iff, ih, List.forall_mem_cons]

theorem fieldDefects_eq_nil {fields : List (String × Datum)} :
    fieldDefects fields = [] ↔ ∀ item ∈ fields.map Prod.snd, item.defects = [] := by
  induction fields with
  | nil => simp [fieldDefects]
  | cons field fields ih =>
      rw [fieldDefects, List.append_eq_nil_iff, ih, List.map_cons, List.forall_mem_cons]

/-- Calls on a map have no defects if they come in turn and every key is a text; taken two by two, as they must
be for that. -/
theorem callDefects_eq_nil : ∀ calls : List (MapCall × Datum), callDefects .value calls = [] ↔
    (InTurn (calls.map Prod.fst) ∧ ∀ key, (MapCall.key, key) ∈ calls → ∃ text, Spells key text) ∧
      ∀ item ∈ calls.map Prod.snd, item.defects = []
  | [] => by simp [callDefects, InTurn.nil]
  | (.value, item) :: calls => by
      refine iff_of_false (List.cons_ne_nil _ _) ?_
      rintro ⟨⟨⟨⟩, -⟩, -⟩
  | [(.key, key)] => by
      refine iff_of_false (by simp [callDefects]) ?_
      rintro ⟨⟨⟨⟩, -⟩, -⟩
  | (.key, key) :: (.key, other) :: calls => by
      refine iff_of_false (by simp [callDefects]) ?_
      rintro ⟨⟨⟨⟩, -⟩, -⟩
  | (.key, key) :: (.value, item) :: calls => by
      have hturn : InTurn (MapCall.key :: MapCall.value :: calls.map Prod.fst) ↔ InTurn (calls.map Prod.fst) := by
        constructor
        · rintro ⟨⟩
          assumption
        · exact .pair
      rw [callDefects, callDefects, List.append_eq_nil_iff, key_defects_eq_nil, List.append_eq_nil_iff,
        callDefects_eq_nil calls]
      simp only [List.map_cons, hturn, List.mem_cons, Prod.mk.injEq, true_and, reduceCtorEq, false_and, false_or,
        forall_eq_or_imp]
      constructor
      · rintro ⟨⟨hkey, htext⟩, hitem, ⟨hturns, htexts⟩, hitems⟩
        exact ⟨⟨hturns, htext, htexts⟩, hkey, hitem, hitems⟩
      · rintro ⟨⟨hturns, htext, htexts⟩, hkey, hitem, hitems⟩
        exact ⟨⟨hkey, htext⟩, hitem, ⟨hturns, htexts⟩, hitems⟩

/-- No call offends exactly when the data is sound. -/
theorem defects_eq_nil_iff (d : Datum) : d.defects = [] ↔ d.Sound := by
  induction d using induction_children with
  | step d ih =>
      have hchildren : (∀ child ∈ d.children, child.defects = []) ↔ ∀ child ∈ d.children, child.Sound :=
        forall₂_congr ih
      rw [sound_iff, ← hchildren]
      cases d with
      | single bits =>
          rw [defects, numberDefects_eq_nil, Binary64.isFinite_ofSingleBits]
          simp [SoundHere, children]
      | double x =>
          rw [defects, numberDefects_eq_nil]
          simp [SoundHere, children]
      | seq items =>
          rw [defects, itemDefects_eq_nil]
          exact ⟨fun h => ⟨trivial, h⟩, And.right⟩
      | seqVariant tag items =>
          rw [defects, itemDefects_eq_nil]
          exact ⟨fun h => ⟨trivial, h⟩, And.right⟩
      | map calls => exact callDefects_eq_nil calls
      | record fields =>
          rw [defects, fieldDefects_eq_nil]
          exact ⟨fun h => ⟨trivial, h⟩, And.right⟩
      | recordVariant tag fields =>
          rw [defects, fieldDefects_eq_nil]
          exact ⟨fun h => ⟨trivial, h⟩, And.right⟩
      | _ => simp [defects, SoundHere, children]

end Datum

end StampedPrograms
