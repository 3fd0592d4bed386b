import StampedPrograms.Verify.Golden
import StampedPrograms.Proofs.Json.Readable
import StampedPrograms.Proofs.Json.TextReading
import StampedPrograms.Proofs.Verify

/-!
What golden sets accept: exactly the sets of the format, for the table of symbols, whose sources compile again to
what is pinned. Recording gives such sets, and they are read back as they were written, since the one option that
is not written is on in all of them. Where a set is accepted, nothing that is pinned in it can be changed.
-/

namespace StampedPrograms

open Json (field?_bind member?_ofPairs ofJson?_string ofJson?_ofUInt32)

/-- The options with a stamp wanted, whatever they say about it. -/
def CompileOptions.stamping (options : CompileOptions) : CompileOptions :=
  { options with includeStamp := true }

/-- The vector with the options that its source is compiled under. -/
def GoldenVector.stamping (vector : GoldenVector) : GoldenVector :=
  { vector with options := vector.options.stamping }

/-- The set with the options that its sources are compiled under. -/
def GoldenSet.stamping (set : GoldenSet) : GoldenSet :=
  { set with vectors := set.vectors.map GoldenVector.stamping }

/-! ### Reading back -/

theorem ExpressionEnvelope.ofJson?_toJson (envelope : ExpressionEnvelope) :
    ofJson? (toJson envelope) = some envelope := by
  refine field?_bind (member?_ofPairs ..) (ofJson?_string _) ?_
  refine field?_bind (member?_ofPairs ..) (ofJson?_ofUInt32 _) ?_
  refine field?_bind (member?_ofPairs ..) (ofJson?_string _) ?_
  refine field?_bind (member?_ofPairs ..) (ofJson?_ofUInt32 _) ?_
  refine field?_bind (member?_ofPairs ..) (ofJson?_string _) ?_
  refine field?_bind (member?_ofPairs ..) (ofJson?_string _) ?_
  refine field?_bind (member?_ofPairs ..) (ofJson?_string _) ?_
  rfl

theorem Stamp.ofJson?_toJson (stamp : Stamp ExpressionEnvelope) : ofJson? (toJson stamp) = some stamp := by
  refine field?_bind (member?_ofPairs ..) (ExpressionEnvelope.ofJson?_toJson _) ?_
  refine field?_bind (member?_ofPairs ..) (ofJson?_string _) ?_
  rfl

/-- Whether a stamp is wanted is not written, and what is read wants one. -/
theorem CompileOptions.ofJson?_toJson (options : CompileOptions) :
    ofJson? (toJson options) = some options.stamping := by
  have hdepth : (toJson options).fieldSpelled? "maxDepth" "max_depth" (32 : UInt32) =
      some options.maxDepth := by
    have hspelled : (toJson options).member? "maxDepth" = some (.ofUInt32 options.maxDepth) :=
      member?_ofPairs ..
    have hother : (toJson options).member? "max_depth" = none := member?_ofPairs ..
    rw [Json.fieldSpelled?, hspelled, hother]
    exact ofJson?_ofUInt32 _
  have hfields : (toJson options).fieldOr? "fields" ([] : List String) = some options.fields :=
    Json.fieldOr?_of_member (member?_ofPairs ..) (Json.ofJson?_ofStrings _) _
  have hparams : (toJson options).fieldOr? "params" ([] : List String) = some options.params :=
    Json.fieldOr?_of_member (member?_ofPairs ..) (Json.ofJson?_ofStrings _) _
  have hstamp : (toJson options).fieldSpelled? "includeAbi" "include_abi" true = some true := by
    have hspelled : (toJson options).member? "includeAbi" = none := member?_ofPairs ..
    have hother : (toJson options).member? "include_abi" = none := member?_ofPairs ..
    rw [Json.fieldSpelled?, hspelled, hother]
  refine Option.bind_eq_some_iff.mpr ⟨(), rfl, ?_⟩
  refine Option.bind_eq_some_iff.mpr ⟨_, hdepth, ?_⟩
  refine Option.bind_eq_some_iff.mpr ⟨_, hfields, ?_⟩
  refine Option.bind_eq_some_iff.mpr ⟨_, hparams, ?_⟩
  refine Option.bind_eq_some_iff.mpr ⟨_, hstamp, ?_⟩
  rfl

theorem GoldenExpectation.ofJson?_toJson (expect : GoldenExpectation) :
    ofJson? (toJson expect) = some expect := by
  refine field?_bind (member?_ofPairs ..) (ofJson?_string _) ?_
  refine field?_bind (member?_ofPairs ..) (Stamp.ofJson?_toJson _) ?_
  rfl

theorem GoldenVector.ofJson?_toJson (vector : GoldenVector) :
    ofJson? (toJson vector) = some vector.stamping := by
  have hoptions : (toJson vector).fieldOr? "opts" ({} : CompileOptions) = some vector.options.stamping :=
    Json.fieldOr?_of_member (member?_ofPairs ..) (CompileOptions.ofJson?_toJson _) _
  refine field?_bind (member?_ofPairs ..) (ofJson?_string _) ?_
  refine field?_bind (member?_ofPairs ..) (ofJson?_string _) ?_
  refine Option.bind_eq_some_iff.mpr ⟨_, hoptions, ?_⟩
  refine field?_bind (member?_ofPairs ..) (GoldenExpectation.ofJson?_toJson _) ?_
  rfl

theorem GoldenSet.ofJson?_toJson (set : GoldenSet) : ofJson? (toJson set) = some set.stamping := by
  refine field?_bind (member?_ofPairs ..) (ofJson?_string _) ?_
  refine field?_bind (member?_ofPairs ..) (ofJson?_string _) ?_
  refine field?_bind (member?_ofPairs ..) (ofJson?_array GoldenVector.ofJson?_toJson _) ?_
  rfl

/-! ### Texts -/

theorem ExpressionEnvelope.plain_toJson (envelope : ExpressionEnvelope) : (toJson envelope).Plain :=
  .ofPairs ⟨.string _, .ofUInt32 _, .string _, .ofUInt32 _, .string _, .string _, .string _⟩

theorem Stamp.plain_toJson (stamp : Stamp ExpressionEnvelope) : (toJson stamp).Plain :=
  .ofPairs ⟨stamp.envelope.plain_toJson, .string _⟩

theorem CompileOptions.plain_toJson (options : CompileOptions) : (toJson options).Plain :=
  .ofPairs ⟨.ofUInt32 _, .ofStrings _, .ofStrings _⟩

theorem GoldenExpectation.plain_toJson (expect : GoldenExpectation) : (toJson expect).Plain :=
  .ofPairs ⟨.string _, expect.stamp.plain_toJson⟩

theorem GoldenVector.plain_toJson (vector : GoldenVector) : (toJson vector).Plain :=
  .ofPairs ⟨.string _, .string _, vector.options.plain_toJson, vector.expect.plain_toJson⟩

theorem GoldenSet.plain_toJson (set : GoldenSet) : (toJson set).Plain := by
  have hvectors : (toJson set.vectors).Plain := by
    refine .array fun doc hdoc => ?_
    obtain ⟨vector, -, rfl⟩ := List.mem_map.mp hdoc
    exact vector.plain_toJson
  exact .ofPairs ⟨.string _, .string _, hvectors⟩

/-- What is read from the text of a set. -/
theorem GoldenSet.read?_print (set : GoldenSet) :
    (Json.read? (toJson set).print).bind ofJson? = some set.stamping := by
  rw [Json.read?_print set.plain_toJson, Option.bind_some, ofJson?_toJson]

/-! ### Vectors -/

/-- Compiling the source of a vector, always with a stamp, gives what is pinned. -/
def GoldenVector.Holds (vector : GoldenVector) : Prop :=
  ∃ out, compile vector.source vector.options.stamping = .ok out ∧
    out.script = vector.expect.script ∧ out.stamp = some vector.expect.stamp

/-- What is pinned against what compiling gave. -/
def checkPinned (name : String) (expect : GoldenExpectation) (script : String)
    (stamp : Stamp ExpressionEnvelope) : Except Error Unit := do
  checkSame (.vector name .script) expect.script script
  checkSame (.vector name .stampHash) expect.stamp.hash stamp.hash
  checkEnvelope (fun field => .vector name (.envelopeField field)) expect.stamp.envelope stamp.envelope

section

variable {name script : String} {expect : GoldenExpectation} {stamp : Stamp ExpressionEnvelope}

theorem checkPinned_eq_ok : checkPinned name expect script stamp = .ok () ↔ expect = ⟨script, stamp⟩ := by
  obtain ⟨pinned, envelope, hash⟩ := expect
  obtain ⟨envelope', hash'⟩ := stamp
  rw [checkPinned, check_bind_eq_ok, check_bind_eq_ok, checkSame_eq_ok, checkSame_eq_ok, checkEnvelope_eq_ok,
    ExpressionEnvelope.difference?_eq_none]
  constructor
  · rintro ⟨hscript, hhash, henvelope⟩
    dsimp only at hscript hhash henvelope
    rw [hscript, hhash, henvelope]
  · rintro ⟨⟩
    exact ⟨rfl, rfl, rfl⟩

theorem mismatch_of_checkPinned {e : Error} (h : checkPinned name expect script stamp = .error e) :
    ∃ part expected actual, e = .abiMismatch (.vector name part) expected actual := by
  rcases bind_eq_error.mp h with hscript | ⟨⟨⟩, -, h⟩
  · exact ⟨_, _, _, (checkSame_eq_error.mp hscript).2⟩
  rcases bind_eq_error.mp h with hhash | ⟨⟨⟩, -, henvelope⟩
  · exact ⟨_, _, _, (checkSame_eq_error.mp hhash).2⟩
  · obtain ⟨found, -, he⟩ := checkEnvelope_eq_error.mp henvelope
    exact ⟨_, _, _, he⟩

end

namespace GoldenSet

/-- A source that compiles has its stamp verified, and what is pinned is compared with the result. -/
theorem checkVector_of_compile {vector : GoldenVector} {out : Compiled}
    (h : compile vector.source vector.options.stamping = .ok out) :
    ∃ stamp, out.stamp = some stamp ∧
      checkVector vector = checkPinned vector.name vector.expect out.script stamp := by
  have hverified := Compiled.verify_of_compile h rfl
  obtain ⟨policy, -, hstamp⟩ := Compiled.verify_eq_ok.mp hverified
  refine ⟨_, hstamp, ?_⟩
  rw [checkVector]
  show (compile vector.source vector.options.stamping >>= _) = _
  rw [h, ok_bind]
  show (out.verify vector.options.stamping >>= _) = _
  rw [hverified, ok_bind, hstamp]
  rfl

theorem checkVector_eq_ok {vector : GoldenVector} : checkVector vector = .ok () ↔ vector.Holds := by
  constructor
  · intro h
    obtain ⟨out, hout, -⟩ := bind_eq_ok.mp h
    obtain ⟨stamp, hstamp, hcheck⟩ := checkVector_of_compile hout
    have hpinned := checkPinned_eq_ok.mp (hcheck.symm.trans h)
    exact ⟨out, hout, (congrArg GoldenExpectation.script hpinned).symm,
      hstamp.trans (congrArg (fun expect => some expect.stamp) hpinned).symm⟩
  · rintro ⟨out, hout, hscript, hpinned⟩
    obtain ⟨stamp, hstamp, hcheck⟩ := checkVector_of_compile hout
    have hsame : vector.expect = ⟨out.script, stamp⟩ := by
      rw [hscript, Option.some.inj (hstamp.symm.trans hpinned)]
    rw [hcheck, checkPinned_eq_ok.mpr hsame]

/-- In place of what is pinned in a vector that holds nothing else does. -/
theorem checkVector_other {vector : GoldenVector} (h : vector.Holds) {expect : GoldenExpectation}
    (hother : expect ≠ vector.expect) :
    ∃ part expected actual, checkVector { vector with expect := expect } =
      .error (.abiMismatch (.vector vector.name part) expected actual) := by
  obtain ⟨out, hout, hscript, hpinned⟩ := h
  have hcompile : compile ({ vector with expect := expect } : GoldenVector).source vector.options.stamping =
      .ok out := hout
  obtain ⟨stamp, hstamp, hcheck⟩ := checkVector_of_compile hcompile
  have hsame : vector.expect = ⟨out.script, stamp⟩ := by
    rw [hscript, Option.some.inj (hstamp.symm.trans hpinned)]
  cases hresult : checkPinned vector.name expect out.script stamp with
  | ok =>
      have hexpect := checkPinned_eq_ok.mp hresult
      exact absurd (hexpect.trans hsame.symm) hother
  | error e =>
      obtain ⟨part, expected, actual, rfl⟩ := mismatch_of_checkPinned hresult
      exact ⟨part, expected, actual, hcheck.trans hresult⟩

/-- A recorded vector holds, and is compiled under the options it is recorded with. -/
theorem holds_of_recordCase {item : GoldenCase} {vector : GoldenVector} (h : recordCase item = .ok vector) :
    vector.Holds ∧ vector.stamping = vector := by
  obtain ⟨out, hout, h⟩ := bind_eq_ok.mp h
  split at h
  · cases h
  · next stamp hstamp =>
      cases h
      exact ⟨⟨out, hout, rfl, hstamp⟩, rfl⟩

/-! ### Sets -/

theorem verify_eq (set : GoldenSet) :
    set.verify = checkSet set.format setFormat (.validation (.goldenFormat set.format)) .goldenSymbols
      set.symbolsHash ExpressionSymbols.v1.digest checkVector set.vectors := rfl

theorem verify_eq_ok {set : GoldenSet} {n : Nat} :
    set.verify = .ok n ↔ set.format = setFormat ∧ set.symbolsHash = ExpressionSymbols.v1.digest ∧
      n = set.vectors.length ∧ ∀ vector ∈ set.vectors, vector.Holds := by
  simp only [verify_eq, checkSet_eq_ok, checkVector_eq_ok]

/-- The options that vectors are compiled under make no difference to the verdict. -/
theorem verify_stamping (set : GoldenSet) : set.stamping.verify = set.verify := by
  have hvectors (vectors : List GoldenVector) :
      (vectors.map GoldenVector.stamping).forM checkVector = vectors.forM checkVector := by
    induction vectors with
    | nil => rfl
    | cons vector vectors ih => exact congrArg (fun rest => checkVector vector >>= fun _ => rest) ih
  have hlength : set.stamping.vectors.length = set.vectors.length := List.length_map ..
  rw [verify, verify, hlength]
  show (if set.format ≠ setFormat then _ else _) = _
  rw [stamping, hvectors]

/-- The symbols are looked at before any vector. -/
theorem verify_drifted {set : GoldenSet} (hformat : set.format = setFormat)
    (hsymbols : set.symbolsHash ≠ ExpressionSymbols.v1.digest) :
    set.verify = .error (.abiMismatch .goldenSymbols set.symbolsHash ExpressionSymbols.v1.digest) := by
  rw [verify_eq, checkSet_of_format hformat, checkSame_eq_error.mpr ⟨hsymbols, rfl⟩]
  rfl

/-- A vector with other expectations is the one that is reported. -/
theorem verify_tampered {set : GoldenSet} {n : Nat} (h : set.verify = .ok n) {before after : List GoldenVector}
    {vector : GoldenVector} (hvectors : set.vectors = before ++ vector :: after) {expect : GoldenExpectation}
    (hother : expect ≠ vector.expect) :
    ∃ part expected actual,
      verify { set with vectors := before ++ { vector with expect := expect } :: after } =
        .error (.abiMismatch (.vector vector.name part) expected actual) := by
  obtain ⟨hformat, hsymbols, -, hall⟩ := verify_eq_ok.mp h
  rw [hvectors, List.forall_mem_append, List.forall_mem_cons] at hall
  obtain ⟨hbefore, hvector, -⟩ := hall
  obtain ⟨part, expected, actual, herror⟩ := checkVector_other hvector hother
  refine ⟨part, expected, actual, ?_⟩
  have hchecked : ∀ earlier ∈ before, checkVector earlier = .ok () := fun earlier hearlier =>
    checkVector_eq_ok.mpr (hbefore earlier hearlier)
  rw [verify_eq]
  dsimp only
  rw [checkSet_of_format hformat, checkSame_eq_ok.mpr hsymbols, ok_bind, forM_eq_error hchecked herror]
  rfl

/-- What recording gives has as many vectors as cases, all of which hold. -/
theorem of_record {items : List GoldenCase} {set : GoldenSet} (h : record items = .ok set) :
    set.verify = .ok items.length ∧ set.stamping = set := by
  obtain ⟨vectors, hvectors, h⟩ := bind_eq_ok.mp h
  cases h
  have hholds (vector : GoldenVector) (hvector : vector ∈ vectors) : vector.Holds ∧ vector.stamping = vector := by
    obtain ⟨item, -, hitem⟩ := exists_of_mem_mapM hvectors hvector
    exact holds_of_recordCase hitem
  have hlength : vectors.map (fun _ => ()) = items.map fun _ => () := map_eq_of_mapM (fun _ _ _ => rfl) hvectors
  constructor
  · refine verify_eq_ok.mpr ⟨rfl, rfl, ?_, fun vector hvector => (hholds vector hvector).1⟩
    simpa using (congrArg List.length hlength).symm
  · have hsame : vectors.map GoldenVector.stamping = vectors := by
      rw [List.map_congr_left fun vector hvector => (hholds vector hvector).2, List.map_id']
    exact congrArg (GoldenSet.mk _ _) hsame

/-- A set is accepted exactly if it has the format, is pinned for the table of symbols, and all its sources
compile again to the pinned script and stamp. So what is recorded is accepted, and is read back from its text as it
is; any other set is read back as one with the same verdict. Nothing that is pinned in an accepted set can be
changed, and a set for another table is refused as such, whatever its vectors. -/
theorem accepted_iff_recompiles (set : GoldenSet) :
    (∀ n, set.verify = .ok n ↔
      set.format = "scxq2-es.golden.v1" ∧ set.symbolsHash = ExpressionSymbols.v1.digest ∧
        n = set.vectors.length ∧
        ∀ vector ∈ set.vectors, ∃ out,
          compile vector.source { vector.options with includeStamp := true } = .ok out ∧
            out.script = vector.expect.script ∧ out.stamp = some vector.expect.stamp) ∧
    (∀ items, record items = .ok set →
      set.verify = .ok items.length ∧ (Json.read? (toJson set).print).bind ofJson? = some set) ∧
    (∃ other : GoldenSet, (Json.read? (toJson set).print).bind ofJson? = some other ∧ other.verify = set.verify) ∧
    (∀ n, set.verify = .ok n → ∀ before vector after expect, set.vectors = before ++ vector :: after →
      expect ≠ vector.expect →
      ∃ part expected actual,
        verify { set with vectors := before ++ { vector with expect := expect } :: after } =
          .error (.abiMismatch (.vector vector.name part) expected actual)) ∧
    (set.format = "scxq2-es.golden.v1" → set.symbolsHash ≠ ExpressionSymbols.v1.digest →
      set.verify = .error (.abiMismatch .goldenSymbols set.symbolsHash ExpressionSymbols.v1.digest)) := by
  refine ⟨fun n => verify_eq_ok, fun items hrecord => ?_, ⟨set.stamping, read?_print set, verify_stamping set⟩,
    fun n h before vector after expect hvectors => verify_tampered h hvectors, verify_drifted⟩
  obtain ⟨hverified, hsame⟩ := of_record hrecord
  exact ⟨hverified, by rw [read?_print, hsame]⟩

/-- A sum, and a field under options that want no stamp. -/
def twoCases : List GoldenCase :=
  [⟨"sum", "_score + 1", {}⟩, ⟨"field", "@v('a')", ⟨32, ["a"], [], false⟩⟩]

/-- The recorded cases are accepted and read back, and refused with a space behind the first script. -/
theorem accepted_iff_recompiles_recorded :
    ∃ set vector after, record twoCases = .ok set ∧ set.verify = .ok 2 ∧
      (Json.read? (toJson set).print).bind ofJson? = some set ∧ set.vectors = vector :: after ∧
      ∃ part expected actual,
        verify { set with vectors :=
          { vector with expect := ⟨vector.expect.script ++ " ", vector.expect.stamp⟩ } :: after } =
          .error (.abiMismatch (.vector vector.name part) expected actual) := by
  have hrecords : (record twoCases).toOption.isSome = true := by decide +kernel
  obtain ⟨set, hset⟩ := Option.isSome_iff_exists.mp hrecords
  rw [toOption_eq_some] at hset
  obtain ⟨hiff, hrecorded, -, htampered, -⟩ := accepted_iff_recompiles set
  obtain ⟨hverified, hread⟩ := hrecorded twoCases hset
  obtain ⟨-, -, hlength, -⟩ := (hiff 2).mp hverified
  cases hvectors : set.vectors with
  | nil =>
      rw [hvectors] at hlength
      cases hlength
  | cons vector after =>
      refine ⟨set, vector, after, hset, hverified, hread, hvectors, ?_⟩
      refine htampered 2 hverified [] vector after _ hvectors fun hsame => ?_
      have hscript := congrArg (fun expect => expect.script.length) hsame
      simp at hscript

end GoldenSet

end StampedPrograms
