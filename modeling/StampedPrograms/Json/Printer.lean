import StampedPrograms.Json.Basic
import StampedPrograms.Binary64.Text
import StampedPrograms.Text.Quoted

/-!
The compact text of a JSON document: no spaces, members in their order.
-/

namespace StampedPrograms

def intText (i : Int) : List Char :=
  if i < 0 then '-' :: Nat.toDigits 10 i.natAbs else Nat.toDigits 10 i.natAbs

def JsonNumber.print : JsonNumber → List Char
  | .int i _ => intText i
  | .float x _ => x.jsonText

namespace Json

mutual

def printChars : Json → List Char
  | .null => "null".toList
  | .bool true => "true".toList
  | .bool false => "false".toList
  | .number n => n.print
  | .string s => Quoted.json s
  | .array items => '[' :: (List.intercalate [','] (printItems items) ++ [']'])
  | .object members => '\x7b' :: (List.intercalate [','] (printMembers members) ++ ['\x7d'])

def printItems : List Json → List (List Char)
  | [] => []
  | item :: items => printChars item :: printItems items

def printMembers : List (String × Json) → List (List Char)
  | [] => []
  | (name, item) :: members => (Quoted.json name ++ ':' :: printChars item) :: printMembers members

end

def print (doc : Json) : String :=
  String.ofList doc.printChars

end Json

end StampedPrograms
