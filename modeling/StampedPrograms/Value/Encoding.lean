import StampedPrograms.Value.Basic
import StampedPrograms.Binary64.Text
import StampedPrograms.Text.Quoted
import StampedPrograms.Text.Utf16

/-!
The canonical text of a value: JSON without spaces, with the canonical texts of numbers and the
entries of a map in the order of the UTF-16 code units of their names. This is the text that is
hashed.
-/

namespace StampedPrograms.Value

/-- An entry of a map once the text of its value is known. -/
def entryText (entry : String × List Char) : List Char :=
  Quoted.json entry.1 ++ ':' :: entry.2

mutual

def encode : Value → List Char
  | .null => "null".toList
  | .bool true => "true".toList
  | .bool false => "false".toList
  | .number x => x.canonicalText
  | .string s => Quoted.json s
  | .list items => '[' :: (List.intercalate [','] (encodeItems items) ++ [']'])
  | .map entries =>
      '\x7b' :: (List.intercalate [',']
        ((Utf16.sortBy Prod.fst (encodeEntries entries)).map entryText) ++ ['\x7d'])

def encodeItems : List Value → List (List Char)
  | [] => []
  | item :: items => encode item :: encodeItems items

def encodeEntries : List (String × Value) → List (String × List Char)
  | [] => []
  | (name, item) :: entries => (name, encode item) :: encodeEntries entries

end

def text (v : Value) : String :=
  String.ofList v.encode

end StampedPrograms.Value
