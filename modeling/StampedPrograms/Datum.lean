import StampedPrograms.Error
import StampedPrograms.Value.Basic
import StampedPrograms.Binary64.Nearest

/-!
Data as a host's serializer hands it over, call by call, and the canonical value it stands for. Some
data has no canonical value: wide integers, bytes, non-finite numbers, maps whose keys are not
strings or whose keys and values do not alternate. The error is that of the first offending call.
-/

namespace StampedPrograms

/-- A bare call on an open map. -/
inductive MapCall where
  | key
  | value
deriving DecidableEq

inductive Datum where
  | absent
  | unit
  | bool (b : Bool)
  | int (i : Int)
  | wideInt (signed : Bool) (i : Int)
  | single (bits : UInt32)
  | double (x : Binary64)
  | char (c : Char)
  | string (s : String)
  | bytes (content : List UInt8)
  | displayed (text : String)
  | wrapped (inner : Datum)
  | unitVariant (tag : String)
  | variant (tag : String) (payload : Datum)
  | seq (items : List Datum)
  | seqVariant (tag : String) (items : List Datum)
  | map (calls : List (MapCall × Datum))
  | record (fields : List (String × Datum))
  | recordVariant (tag : String) (fields : List (String × Datum))
  | refused (reason : String)

/-- A finite number as a value; both zeros become the one without a sign. -/
def Value.ofBinary64 (x : Binary64) : Except Error Value :=
  if x.IsFinite then .ok (.number x.unsignedZero) else .error (.validation (.nonFinite x))

namespace Datum

def numberValue (x : Binary64) : Except Error Value :=
  match Value.ofBinary64 x with
  | .ok v => .ok v
  | .error _ => .error (.validation (.nonFiniteDatum x))

/-- The name a key stands for. -/
def keyName : Value → Except Error String
  | .string s => .ok s
  | v => .error (.validation (.keyNotString v.kind))

mutual

def toValue : Datum → Except Error Value
  | .absent => .ok .null
  | .unit => .ok .null
  | .bool b => .ok (.bool b)
  | .int i => numberValue (.ofInt i)
  | .wideInt signed _ =>
      .error (.validation (.unsupportedType (if signed then .signed128 else .unsigned128)))
  | .single bits => numberValue (.ofSingleBits bits)
  | .double x => numberValue x
  | .char c => .ok (.string c.toString)
  | .string s => .ok (.string s)
  | .bytes _ => .error (.validation (.unsupportedType .bytes))
  | .displayed text => .ok (.string text)
  | .wrapped inner => toValue inner
  | .unitVariant tag => .ok (.string tag)
  | .variant tag payload => do return .tagged tag (← toValue payload)
  | .seq items => do return .list (← itemValues items)
  | .seqVariant tag items => do return .tagged tag (.list (← itemValues items))
  | .map calls => do return .map (← mapEntries [] none calls)
  | .record fields => do return .ofPairs (← fieldValues fields)
  | .recordVariant tag fields => do return .tagged tag (.ofPairs (← fieldValues fields))
  | .refused reason => .error (.validation (.reported reason))

def itemValues : List Datum → Except Error (List Value)
  | [] => .ok []
  | item :: items => do
      let value ← toValue item
      let values ← itemValues items
      return value :: values

def fieldValues : List (String × Datum) → Except Error (List (String × Value))
  | [] => .ok []
  | (name, item) :: fields => do
      let value ← toValue item
      let values ← fieldValues fields
      return (name, value) :: values

/-- The entries of a map after these calls, from the entries so far and the key that waits for its
value. -/
def mapEntries (entries : List (String × Value)) :
    (pending : Option String) → List (MapCall × Datum) → Except Error (List (String × Value))
  | none, [] => .ok entries
  | some _, [] => .error (.validation .danglingKey)
  | none, (.key, key) :: calls => do
      let name ← keyName (← toValue key)
      mapEntries entries (some name) calls
  | some _, (.key, _) :: _ => .error (.validation .keyBeforeValue)
  | none, (.value, _) :: _ => .error (.validation .valueBeforeKey)
  | some name, (.value, item) :: calls => do
      let value ← toValue item
      mapEntries (Entries.insert name value entries) none calls

end

end Datum

end StampedPrograms
