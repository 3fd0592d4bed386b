import StampedPrograms.Proofs.Binary64.Integers
import StampedPrograms.Proofs.Json.Alike

/-!
Deep equality lies between being the same document and being alike: a document equals itself, and
documents that are equal are alike. So are an integer and the double that is equal to it.
-/

namespace StampedPrograms

namespace Binary64

theorem IsFinite.sameNumber_self {x : Binary64} (h : x.IsFinite) : x.sameNumber x = true := by
  have hle : x.magnitude ≤ infinite := Nat.le_of_lt h
  simp [sameNumber, hle]

theorem sameNumber_zero (x : Binary64) : x.sameNumber zero = decide (x.magnitude = 0) := by
  by_cases hzero : x.magnitude = 0
  · simp [sameNumber, zero, signedZero, hzero]
  · simp [sameNumber, zero, signedZero, hzero]

/-- Doubles that are the same but for the sign of a zero. -/
theorem unsignedZero_eq_iff {x y : Binary64} : x.unsignedZero = y.unsignedZero ↔
    x.magnitude = y.magnitude ∧ (x.negative = y.negative ∨ x.magnitude = 0) := by
  have hzero (z : Binary64) : z.unsignedZero.magnitude = z.magnitude := by
    rw [unsignedZero]
    split
    · next h => exact h.symm
    · rfl
  constructor
  · intro h
    have hmagnitude : x.magnitude = y.magnitude := by rw [← hzero x, ← hzero y, h]
    refine ⟨hmagnitude, ?_⟩
    by_cases hx : x.magnitude = 0
    · exact .inr hx
    · rw [unsignedZero, unsignedZero, if_neg hx, if_neg (hmagnitude ▸ hx)] at h
      exact .inl (congrArg negative h)
  · rintro ⟨hmagnitude, hsign⟩
    by_cases hx : x.magnitude = 0
    · rw [unsignedZero, unsignedZero, if_pos hx, if_pos (hmagnitude ▸ hx)]
    · obtain ⟨negative, magnitude, hlt⟩ := x
      obtain ⟨negative', magnitude', hlt'⟩ := y
      have hnegative : negative = negative' := hsign.resolve_right hx
      cases hnegative
      cases hmagnitude
      rfl

theorem unsignedZero_eq_of_sameNumber {x y : Binary64} (h : x.sameNumber y = true) :
    x.unsignedZero = y.unsignedZero := by
  simp only [sameNumber, Bool.and_eq_true, Bool.or_eq_true, decide_eq_true_eq, beq_iff_eq] at h
  exact unsignedZero_eq_iff.mpr ⟨h.1.2, h.2⟩

/-- The sign of a zero makes no difference to what a double is equal to. -/
theorem sameNumber_of_unsignedZero_eq {x y : Binary64} (h : x.unsignedZero = y.unsignedZero)
    (z : Binary64) : x.sameNumber z = y.sameNumber z := by
  obtain ⟨hmagnitude, hsign⟩ := unsignedZero_eq_iff.mp h
  rw [sameNumber, sameNumber, ← hmagnitude]
  rcases hsign with hsign | hzero
  · rw [hsign]
  · simp [hzero]

/-- An integral double is the double nearest to its integer, but for the sign of a zero. -/
theorem unsignedZero_ofInt_truncate {x : Binary64} (h : x.isIntegral = true) :
    (ofInt x.truncate).unsignedZero = x.unsignedZero := by
  obtain ⟨hfinite, hunits⟩ : x.IsFinite ∧ units x.magnitude % unitsPerOne = 0 := by
    simpa [isIntegral] using h
  have habs : x.truncate.natAbs * unitsPerOne = units x.magnitude := by
    have hwhole : x.truncate.natAbs = x.whole := by
      rw [truncate]
      split <;> omega
    rw [hwhole, whole, Nat.div_mul_cancel (Nat.dvd_of_mod_eq_zero hunits)]
  have hmagnitude : (ofInt x.truncate).magnitude = x.magnitude := by
    show nearest (x.truncate.natAbs * unitsPerOne) 1 = x.magnitude
    rw [habs, nearest_units hfinite]
  refine unsignedZero_eq_iff.mpr ⟨hmagnitude, ?_⟩
  by_cases hzero : x.truncate = 0
  · right
    rw [magnitude_ofInt_eq_zero, hzero]
  · left
    show decide (x.truncate < 0) = x.negative
    rw [truncate] at hzero ⊢
    cases hsign : x.negative with
    | true =>
        rw [hsign, if_pos rfl] at hzero
        rw [if_pos rfl]
        exact decide_eq_true (by omega)
    | false => exact decide_eq_false (by simp)

end Binary64

namespace JsonNumber

theorem equal_self (n : JsonNumber) : n.equal n = true := by
  cases n with
  | int i _ => exact beq_self_eq_true i
  | float x finite => exact finite.sameNumber_self

theorem unsignedZero_eq_of_equal {m n : JsonNumber} (h : m.equal n = true) :
    m.toBinary64.unsignedZero = n.toBinary64.unsignedZero := by
  cases m <;> cases n <;> simp only [equal, Bool.false_eq_true, beq_iff_eq] at h
  · rw [toBinary64, toBinary64, h]
  · exact Binary64.unsignedZero_eq_of_sameNumber h

end JsonNumber

namespace Json

/-- An integer and the double that is equal to it. -/
theorem alike_integer {i : Int} (fits : Fits64 i) {x : Binary64} (finite : x.IsFinite)
    (hintegral : x.isIntegral = true) (hvalue : x.truncate = i) :
    Alike (.number (.int i fits)) (.number (.float x finite)) := by
  have hnumber : (Binary64.ofInt i).unsignedZero = x.unsignedZero := by
    rw [← hvalue, Binary64.unsignedZero_ofInt_truncate hintegral]
  exact congrArg Value.number hnumber

mutual

theorem equal_self : ∀ doc : Json, doc.equal doc = true
  | .null => rfl
  | .bool b => beq_self_eq_true b
  | .number n => n.equal_self
  | .string s => beq_self_eq_true s
  | .array items => equalItems_self items
  | .object members => equalMembers_self members

theorem equalItems_self : ∀ items : List Json, equalItems items items = true
  | [] => rfl
  | item :: items => by rw [equalItems, equal_self item, equalItems_self items]; rfl

theorem equalMembers_self : ∀ members : List (String × Json), equalMembers members members = true
  | [] => rfl
  | (name, item) :: members => by
      rw [equalMembers, beq_self_eq_true, equal_self item, equalMembers_self members]
      rfl

end

mutual

theorem alike_of_equal : ∀ a b : Json, a.equal b = true → a.Alike b
  | .null, other, h => by
      cases other with
      | null => rfl
      | _ => exact absurd h Bool.false_ne_true
  | .bool _, other, h => by
      cases other with
      | bool _ => exact congrArg Value.bool (eq_of_beq h)
      | _ => exact absurd h Bool.false_ne_true
  | .number _, other, h => by
      cases other with
      | number _ => exact congrArg Value.number (JsonNumber.unsignedZero_eq_of_equal h)
      | _ => exact absurd h Bool.false_ne_true
  | .string _, other, h => by
      cases other with
      | string _ => exact congrArg Value.string (eq_of_beq h)
      | _ => exact absurd h Bool.false_ne_true
  | .array items, other, h => by
      cases other with
      | array others => exact congrArg Value.list (inOrderItems_eq_of_equal items others h)
      | _ => exact absurd h Bool.false_ne_true
  | .object members, other, h => by
      cases other with
      | object others => exact congrArg Value.map (inOrderMembers_eq_of_equal members others h)
      | _ => exact absurd h Bool.false_ne_true

theorem inOrderItems_eq_of_equal : ∀ xs ys : List Json, equalItems xs ys = true →
    Value.inOrderItems xs = Value.inOrderItems ys
  | [], [], _ => rfl
  | x :: xs, y :: ys, h => by
      rw [equalItems, Bool.and_eq_true] at h
      have hx : Value.inOrder x = Value.inOrder y := alike_of_equal x y h.1
      rw [Value.inOrderItems, Value.inOrderItems, hx, inOrderItems_eq_of_equal xs ys h.2]

theorem inOrderMembers_eq_of_equal : ∀ xs ys : List (String × Json), equalMembers xs ys = true →
    Value.inOrderMembers xs = Value.inOrderMembers ys
  | [], [], _ => rfl
  | (name, x) :: xs, (name', y) :: ys, h => by
      rw [equalMembers, Bool.and_eq_true, Bool.and_eq_true] at h
      obtain ⟨⟨hname, hitem⟩, hrest⟩ := h
      have hx : Value.inOrder x = Value.inOrder y := alike_of_equal x y hitem
      rw [Value.inOrderMembers, Value.inOrderMembers, eq_of_beq hname, hx,
        inOrderMembers_eq_of_equal xs ys hrest]

end

end Json

end StampedPrograms
