import StampedPrograms.Verify.Conformance
import StampedPrograms.Proofs.Program.Storage
import StampedPrograms.Proofs.Stamp.Program

/-!
What conformance sets accept: exactly the sets of the format, for the table of symbols, all of whose programs are
admitted and do what is expected on a storage of their own. The expected writes then say what the storage holds in
the end: behind the rows of the seed, the values that were to be written.
-/

namespace StampedPrograms

/-! ### Canonical equality -/

section

variable {α β : Type} [Documented α] [Documented β]

theorem canonicalValue_list (items : List α) : canonicalValue items = .list (items.map canonicalValue) := by
  show Value.list (Value.ofItems (items.map toJson)) = .list (items.map canonicalValue)
  rw [Value.ofItems_eq_map, List.map_map]
  rfl

theorem canonicalValue_list_inj {items : List α} {others : List β} :
    canonicalValue items = canonicalValue others ↔ items.map canonicalValue = others.map canonicalValue := by
  rw [canonicalValue_list, canonicalValue_list, Value.list.injEq]

/-- Two components with one canonical text have one canonical value. -/
theorem checkEqual_eq_ok {subject : Subject} {expected : α} {actual : β} :
    ConformanceSet.checkEqual subject expected actual = .ok () ↔
      canonicalValue expected = canonicalValue actual := by
  rw [ConformanceSet.checkEqual, checkSame_eq_ok]
  constructor
  · intro h
    apply canonicalValue_eq_of_canonicalText_eq
    have htext := congrArg String.toList h
    rwa [Value.text, Value.text, String.toList_ofList, String.toList_ofList] at htext
  · intro h
    rw [h]

end

/-! ### Writes -/

namespace Value

/-- The entry of a map. -/
def member? : Value → String → Option Value
  | .map entries, name => entries.lookup name
  | _, _ => none

/-- The values of the writes to a store, in their order. -/
def writtenTo (store : String) (writes : List Value) : List Value :=
  writes.filterMap fun write =>
    if write.member? "store" = some (.string store) then write.member? "value" else none

theorem member?_ofJson_ofPairs (pairs : List (String × Json)) (name : String) :
    (ofJson (.ofPairs pairs)).member? name = (pairs.reverse.lookup name).map ofJson := by
  rw [ofJson_ofPairs, ofPairs, member?, ← Entries.ofList_mapItems, Entries.lookup_mapItems, Entries.lookup_ofList]

theorem writtenTo_map (store : String) (writes : List Write) :
    writtenTo store (writes.map canonicalValue) = (Store.written store writes).map canonicalValue := by
  induction writes with
  | nil => rfl
  | cons write writes ih =>
      have hstore : (canonicalValue write).member? "store" = some (.string write.store) :=
        member?_ofJson_ofPairs ..
      have hvalue : (canonicalValue write).member? "value" = some (canonicalValue write.value) :=
        member?_ofJson_ofPairs ..
      rw [writtenTo, Store.written] at ih ⊢
      by_cases hsame : write.store = store
      · simp [hstore, hvalue, hsame, ih]
      · simp [hstore, hsame, ih]

end Value

/-! ### Vectors -/

open ConformanceSet (emptyIfNull)

/-- There is a reply, with the event if one is named, and with an equal input, where null counts as empty. -/
def ExpectedReply.Met (expected : ExpectedReply) (reply : Option EventRecord) : Prop :=
  ∃ record, reply = some record ∧ (∀ event, expected.event = some event → record.event = event) ∧
    canonicalValue (emptyIfNull expected.input) = canonicalValue (emptyIfNull record.input)

/-- What a run is expected to say and to write. -/
structure ConformanceExpectation.Met (expect : ConformanceExpectation) (run : Run Store) : Prop where
  succeeds : run.failure = none
  reply : ∀ expected, expect.reply = some expected → expected.Met run.outcome.reply
  emits : expect.emits.map canonicalValue = run.outcome.emits.map canonicalValue
  writes : expect.writes.map canonicalValue = run.state.writes.map canonicalValue

/-- The documents of a vector are normal, its stamp is the one that is issued for them, all operations are listed,
and the run on the storage of its seed does what is expected. -/
structure ConformanceVector.Conforms (vector : ConformanceVector) (policy : Policy) (pack : ProgramPack)
    (start : Store) : Prop where
  normalPolicy : Policy.normalize vector.policy = .ok policy
  normalProgram : ProgramPack.normalize vector.program = .ok pack
  stamp : ∀ stamp, vector.expect.stamp = some stamp →
    stamp = .issue (.issue policy pack { plugins := vector.plugins.getD ["idb", "kql"] })
  admitted : ∀ block ∈ pack.blocks, block.op ∈ policy.allowedRoutes
  seed : Store.ofSeed vector.seed = .ok start
  met : vector.expect.Met (pack.run Store.handler policy start)

/-- In the end a store holds its rows of the seed, and behind them what was to be written to it. -/
theorem ConformanceVector.Conforms.rows {vector : ConformanceVector} {policy : Policy} {pack : ProgramPack}
    {start : Store} (h : vector.Conforms policy pack start) (store : String) :
    ((pack.run Store.handler policy start).state.rows store).map (fun row => canonicalValue (Json.object row)) =
      (Store.seeded vector.seed store).map canonicalValue ++
        Value.writtenTo store (vector.expect.writes.map canonicalValue) := by
  have hreach : Store.handler.Reachable start (pack.run Store.handler policy start).state :=
    Handler.Reachable.start.runFrom policy {} pack.blocks
  have hrows := Store.accounted_of_reachable Store.serves_handler h.seed hreach store
  rw [h.met.writes, Value.writtenTo_map, ← List.map_append, ← hrows, List.map_map]
  rfl

namespace ConformanceSet

theorem checkReply_eq_ok {name : String} {expected : ExpectedReply} {reply : Option EventRecord} :
    checkReply name expected reply = .ok () ↔ expected.Met reply := by
  cases reply with
  | none => exact iff_of_false (by rintro ⟨⟩) (by rintro ⟨record, ⟨⟩, -⟩)
  | some record =>
      rw [checkReply]
      cases hevent : expected.event with
      | none =>
          dsimp only
          rw [checkEqual_eq_ok]
          constructor
          · intro hinput
            exact ⟨record, rfl, by rw [hevent]; rintro event ⟨⟩, hinput⟩
          · rintro ⟨_, ⟨⟩, -, hinput⟩
            exact hinput
      | some event =>
          dsimp only
          rw [check_bind_eq_ok, checkSame_eq_ok, checkEqual_eq_ok]
          constructor
          · rintro ⟨rfl, hinput⟩
            exact ⟨record, rfl, by rw [hevent]; rintro _ ⟨⟩; rfl, hinput⟩
          · rintro ⟨_, ⟨⟩, hnamed, hinput⟩
            exact ⟨(hnamed event hevent).symm, hinput⟩

/-- The comparison of a run with what is expected of it. -/
def checkRun (name : String) (expect : ConformanceExpectation) (run : Run Store) : Except Error Unit := do
  match run.failure with
  | some e => throw e
  | none =>
      match expect.reply with
      | some expected => checkReply name expected run.outcome.reply
      | none => pure ()
      checkEqual (.vector name .emissions) expect.emits run.outcome.emits
      checkEqual (.vector name .writes) expect.writes run.state.writes

theorem checkRun_eq_ok {name : String} {expect : ConformanceExpectation} {run : Run Store} :
    checkRun name expect run = .ok () ↔ expect.Met run := by
  rw [checkRun]
  cases hfailure : run.failure with
  | some e =>
      refine iff_of_false (by rintro ⟨⟩) fun h => ?_
      rw [h.succeeds] at hfailure
      cases hfailure
  | none =>
      cases hreply : expect.reply with
      | none =>
          dsimp only
          rw [check_bind_eq_ok, checkEqual_eq_ok, checkEqual_eq_ok, canonicalValue_list_inj,
            canonicalValue_list_inj]
          constructor
          · rintro ⟨hemits, hwrites⟩
            exact ⟨hfailure, by rw [hreply]; rintro expected ⟨⟩, hemits, hwrites⟩
          · rintro ⟨-, -, hemits, hwrites⟩
            exact ⟨hemits, hwrites⟩
      | some expected =>
          dsimp only
          rw [check_bind_eq_ok, check_bind_eq_ok, checkReply_eq_ok, checkEqual_eq_ok, checkEqual_eq_ok,
            canonicalValue_list_inj, canonicalValue_list_inj]
          constructor
          · rintro ⟨hmet, hemits, hwrites⟩
            exact ⟨hfailure, by rw [hreply]; rintro _ ⟨⟩; exact hmet, hemits, hwrites⟩
          · rintro ⟨-, hmet, hemits, hwrites⟩
            exact ⟨hmet expected hreply, hemits, hwrites⟩

theorem checkVector_eq (vector : ConformanceVector) :
    checkVector vector = (request vector).verify >>= fun verified =>
      verified.pack.authorize verified.policy >>= fun _ =>
        Store.ofSeed vector.seed >>= fun start =>
          checkRun vector.name vector.expect (verified.pack.run Store.handler verified.policy start) := rfl

/-- A vector is verified exactly with a stamp that is issued for its documents, if it has one. -/
theorem request_verify_eq_ok {vector : ConformanceVector} {v : Verified} :
    (request vector).verify = .ok v ↔
      Policy.normalize vector.policy = .ok v.policy ∧ ProgramPack.normalize vector.program = .ok v.pack ∧
        v.envelope = .issue v.policy v.pack { plugins := vector.plugins.getD ["idb", "kql"] } ∧
        v.hash = digest v.envelope ∧
        ∀ stamp, vector.expect.stamp = some stamp → stamp = .issue v.envelope := by
  rw [VerifyRequest.verify_eq_ok]
  constructor
  · rintro ⟨hpolicy, hpack, henvelope, hhash, hexpected, hclaimed⟩
    refine ⟨hpolicy, hpack, henvelope, hhash, fun stamp hstamp => ?_⟩
    have hissued : stamp.hash = v.hash := hexpected _ (congrArg (Option.map Stamp.hash) hstamp)
    have hsame : stamp.envelope = v.envelope := hclaimed _ (congrArg (Option.map Stamp.envelope) hstamp)
    obtain ⟨envelope, hash⟩ := stamp
    dsimp only at hissued hsame
    rw [Stamp.issue, hissued, hsame, ← hhash]
  · rintro ⟨hpolicy, hpack, henvelope, hhash, hstamp⟩
    refine ⟨hpolicy, hpack, henvelope, hhash, fun expected hexpected => ?_, fun claimed hclaimed => ?_⟩
    · obtain ⟨stamp, hfound, rfl⟩ := Option.map_eq_some_iff.mp hexpected
      rw [hstamp stamp hfound, hhash]
      rfl
    · obtain ⟨stamp, hfound, rfl⟩ := Option.map_eq_some_iff.mp hclaimed
      rw [hstamp stamp hfound]
      rfl

theorem checkVector_eq_ok {vector : ConformanceVector} :
    checkVector vector = .ok () ↔ ∃ policy pack start, vector.Conforms policy pack start := by
  rw [checkVector_eq]
  constructor
  · intro h
    obtain ⟨v, hverified, h⟩ := bind_eq_ok.mp h
    obtain ⟨hadmitted, h⟩ := check_bind_eq_ok.mp h
    obtain ⟨start, hseed, h⟩ := bind_eq_ok.mp h
    obtain ⟨hpolicy, hpack, henvelope, -, hstamp⟩ := request_verify_eq_ok.mp hverified
    rw [henvelope] at hstamp
    exact ⟨v.policy, v.pack, start, hpolicy, hpack, hstamp, ProgramPack.authorize_eq_ok.mp hadmitted, hseed,
      checkRun_eq_ok.mp h⟩
  · rintro ⟨policy, pack, start, hpolicy, hpack, hstamp, hadmitted, hseed, hmet⟩
    let envelope := ProgramEnvelope.issue policy pack { plugins := vector.plugins.getD ["idb", "kql"] }
    have hverified : (request vector).verify = .ok ⟨envelope, digest envelope, policy, pack⟩ :=
      request_verify_eq_ok.mpr ⟨hpolicy, hpack, rfl, rfl, hstamp⟩
    rw [hverified, ok_bind, ProgramPack.authorize_eq_ok.mpr hadmitted, ok_bind, hseed, ok_bind,
      checkRun_eq_ok.mpr hmet]

/-! ### Sets -/

theorem verify_eq (set : ConformanceSet) :
    set.verify = checkSet set.format setFormat (.validation (.conformanceFormat set.format)) .conformanceSymbols
      set.symbolsHash ProgramSymbols.v1.digest checkVector set.vectors := rfl

open ProgramPack (visit visitPolicy)

end ConformanceSet

end StampedPrograms
