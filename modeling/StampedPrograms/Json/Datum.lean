import StampedPrograms.Datum

/-!
A JSON document handed over as data, call by call: a number by its kind, an object as a map of keys
and values in turn.
-/

namespace StampedPrograms

def JsonNumber.toDatum : JsonNumber → Datum
  | .int i _ => .int i
  | .float x _ => .double x

namespace Json

mutual

def toDatum : Json → Datum
  | .null => .unit
  | .bool b => .bool b
  | .number n => n.toDatum
  | .string s => .string s
  | .array items => .seq (itemData items)
  | .object members => .map (memberCalls members)

def itemData : List Json → List Datum
  | [] => []
  | item :: items => toDatum item :: itemData items

def memberCalls : List (String × Json) → List (MapCall × Datum)
  | [] => []
  | (name, item) :: members =>
      (.key, .string name) :: (.value, toDatum item) :: memberCalls members

end

end Json

end StampedPrograms
