import StampedPrograms.Symbols
import StampedPrograms.Proofs.Digest
import StampedPrograms.Proofs.Value.Record

/-!
What the identity of a table of symbols keeps of it. Operators and calls are hashed as records under their names, so
the order of a table of expressions is lost and nothing else; operations and effects of programs are hashed as lists,
so nothing of that table is lost.
-/

namespace StampedPrograms

open Value (ofJson ofJson_string_inj ofJson_ofStrings_inj ofJson_ofUInt32_inj ofJson_ofUInt64_inj)

/-- A table that lists no operator and no call twice and whose numbers of arguments are all doubles. -/
structure ExpressionSymbols.Proper (table : ExpressionSymbols) : Prop where
  ops : (table.ops.map Prod.fst).Nodup
  calls : (table.calls.map CallSpec.name).Nodup
  arities : ∀ spec ∈ table.calls,
    spec.arityMin.toNat < Value.exactBound ∧ spec.arityMax.toNat < Value.exactBound

/-- A call is told by its name, which is no part of its record, and its record. -/
theorem CallSpec.eq_of_record_eq {spec other : CallSpec} (hmin : spec.arityMin.toNat < Value.exactBound)
    (hmax : spec.arityMax.toNat < Value.exactBound) (hmin' : other.arityMin.toNat < Value.exactBound)
    (hmax' : other.arityMax.toNat < Value.exactBound) (hname : spec.name = other.name)
    (h : ofJson (toJson spec) = ofJson (toJson other)) : spec = other := by
  have hitems := Value.items_of_record_eq h rfl (by simp)
  cases spec
  cases other
  simp only [Entries.mapItems, List.map_cons, List.map_nil, List.cons.injEq, Prod.mk.injEq, true_and, and_true,
    ofJson_string_inj, ofJson_ofUInt64_inj hmin hmin', ofJson_ofUInt64_inj hmax hmax'] at hitems
  obtain ⟨rfl, rfl, rfl, rfl⟩ := hitems
  cases hname
  rfl

namespace ExpressionSymbols

variable {table other : ExpressionSymbols}

/-- The record of a table keeps its operators and its calls, but not in which order they are listed. -/
theorem toJson_eq_iff (h : table.Proper) (hother : other.Proper) :
    ofJson (toJson table) = ofJson (toJson other) ↔ table.ops.Perm other.ops ∧ table.calls.Perm other.calls := by
  have hops := Value.ofJson_items_eq_iff_perm (fun op => .string op.2) h.ops hother.ops
    fun op _ op' _ hname hsymbol => Prod.ext hname (ofJson_string_inj.mp hsymbol)
  have hcalls := Value.ofJson_items_eq_iff_perm toJson h.calls hother.calls
    fun spec hspec spec' hspec' => by
      obtain ⟨hmin, hmax⟩ := h.arities spec hspec
      obtain ⟨hmin', hmax'⟩ := hother.arities spec' hspec'
      exact CallSpec.eq_of_record_eq hmin hmax hmin' hmax'
  rw [← hops, ← hcalls]
  show ofJson (.ofPairs [("ops", _), ("calls", _)]) = ofJson (.ofPairs [("ops", _), ("calls", _)]) ↔ _
  rw [Value.record_eq_iff_items]
  · simp [Entries.mapItems]
  · rfl
  · simp

theorem binding_eq_iff : ofJson table.binding = ofJson other.binding ↔
    ofJson (toJson table) = ofJson (toJson other) := by
  show ofJson (.ofPairs [("symbol_table_v1", _), _]) = ofJson (.ofPairs [("symbol_table_v1", _), _]) ↔ _
  rw [Value.record_eq_iff_items]
  · simp [Entries.mapItems]
  · rfl
  · simp

end ExpressionSymbols

theorem ProgramSymbols.eq_of_canonicalValue_eq {table other : ProgramSymbols}
    (h : canonicalValue table = canonicalValue other) : table = other := by
  have hitems := Value.items_of_record_eq h rfl (by simp)
  cases table
  cases other
  simpa [Entries.mapItems, ofJson_ofUInt32_inj, ofJson_ofStrings_inj] using hitems

/-- The text that is hashed for a table of expressions tells which operators and calls there are, each with all that
the table says of it; that for a table of programs tells all of the table, the order of its lists included. -/
theorem symbolTable_text_eq_iff :
    (∀ table : ExpressionSymbols, table.digest = textDigest (canonicalText table.binding)) ∧
    (∀ table other : ExpressionSymbols, table.Proper → other.Proper →
      (canonicalText table.binding = canonicalText other.binding ↔
        table.ops.Perm other.ops ∧ table.calls.Perm other.calls)) ∧
    (∀ table : ProgramSymbols, table.digest = textDigest (namespacedText "symbols" table)) ∧
    ∀ table other : ProgramSymbols, namespacedText "symbols" table = namespacedText "symbols" other ↔
      table.version = other.version ∧ table.ops = other.ops ∧ table.effects = other.effects := by
  refine ⟨fun _ => rfl, fun table other h hother => ?_, fun _ => rfl, fun table other => ⟨fun h => ?_, ?_⟩⟩
  · rw [← ExpressionSymbols.toJson_eq_iff h hother, ← ExpressionSymbols.binding_eq_iff]
    exact ⟨canonicalValue_eq_of_canonicalText_eq, congrArg Value.encode⟩
  · rw [ProgramSymbols.eq_of_canonicalValue_eq (canonicalValue_eq_of_namespacedText_eq h).2]
    exact ⟨rfl, rfl, rfl⟩
  · obtain ⟨version, ops, effects⟩ := table
    rintro ⟨rfl, rfl, rfl⟩
    rfl

/-- The table in use listed from its end, and the same table with one more argument for its last call. -/
theorem symbolTable_text_eq_iff_drifted :
    let listed : ExpressionSymbols := ⟨.reverse ExpressionSymbols.v1.ops, .reverse ExpressionSymbols.v1.calls⟩
    let drifted : ExpressionSymbols :=
      ⟨ExpressionSymbols.v1.ops, ExpressionSymbols.v1.calls.dropLast ++ [⟨"pow", 2, 3, "@pow(a,b)", "Math.pow(a,b)"⟩]⟩
    ExpressionSymbols.v1.Proper ∧ listed.Proper ∧ drifted.Proper ∧
      canonicalText listed.binding = canonicalText ExpressionSymbols.v1.binding ∧
      canonicalText drifted.binding ≠ canonicalText ExpressionSymbols.v1.binding := by
  intro listed drifted
  have hv1 : ExpressionSymbols.v1.Proper := ⟨by decide, by decide, by decide⟩
  have hlisted : listed.Proper := ⟨by decide, by decide, by decide⟩
  have hdrifted : drifted.Proper := ⟨by decide, by decide, by decide⟩
  obtain ⟨-, htold, -⟩ := symbolTable_text_eq_iff
  refine ⟨hv1, hlisted, hdrifted, ?_, fun h => ?_⟩
  · exact (htold listed _ hlisted hv1).mpr ⟨List.reverse_perm _, List.reverse_perm _⟩
  · have hcalls := ((htold drifted _ hdrifted hv1).mp h).2
    have hcall : (⟨"pow", 2, 3, "@pow(a,b)", "Math.pow(a,b)"⟩ : CallSpec) ∈ ExpressionSymbols.v1.calls :=
      hcalls.subset (by simp [drifted])
    simp [ExpressionSymbols.v1] at hcall

end StampedPrograms
