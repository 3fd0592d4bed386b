/-!
The order of strings by their UTF-16 code units. It differs from the order by code points where a
character beyond the basic plane, whose units are surrogates, meets one in U+E000..U+FFFF.
-/

namespace StampedPrograms.Utf16

/-- The code units of a character: itself, or a high and a low surrogate. -/
def unitsOfChar (c : Char) : List Nat :=
  let code := c.toNat
  if code < 0x10000 then [code]
  else [0xD800 + (code - 0x10000) / 0x400, 0xDC00 + (code - 0x10000) % 0x400]

def units (s : String) : List Nat :=
  s.toList.flatMap unitsOfChar

/-- Compares code unit by code unit; a proper beginning comes first. -/
def order (a b : String) : Ordering :=
  compare (units a) (units b)

/-- Puts an item before the first one whose name is not smaller. -/
def place {α : Type} (name : α → String) (item : α) : List α → List α
  | [] => [item]
  | head :: rest =>
      if order (name item) (name head) = .gt then head :: place name item rest
      else item :: head :: rest

/-- Sorts by the code units of the names; items of one name keep their order. -/
def sortBy {α : Type} (name : α → String) (items : List α) : List α :=
  items.foldr (place name) []

def sort (items : List String) : List String :=
  sortBy id items

end StampedPrograms.Utf16
