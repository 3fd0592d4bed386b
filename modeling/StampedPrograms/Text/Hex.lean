/-!
Bytes and words in lowercase hexadecimal digits.
-/

namespace StampedPrograms.Hex

/-- The value of a hexadecimal digit in either case. -/
def digitValue? (c : Char) : Option Nat :=
  if '0' ≤ c ∧ c ≤ '9' then some (c.toNat - '0'.toNat)
  else if 'a' ≤ c ∧ c ≤ 'f' then some (c.toNat - 'a'.toNat + 10)
  else if 'A' ≤ c ∧ c ≤ 'F' then some (c.toNat - 'A'.toNat + 10)
  else none

/-- The lowest `width` hexadecimal digits of a number, the highest first. -/
def digits : (width : Nat) → Nat → List Char
  | 0, _ => []
  | width + 1, n => digits width (n / 16) ++ [Nat.digitChar (n % 16)]

def ofBytes (bytes : List UInt8) : String :=
  String.ofList (bytes.flatMap fun byte => digits 2 byte.toNat)

/-- Reads a number of any length. -/
def number? (cs : List Char) : Option Nat :=
  cs.foldl (fun n c => return (← n) * 16 + (← digitValue? c)) (some 0)

/-- Reads two digits a byte. -/
def bytes? : List Char → Option (List UInt8)
  | [] => some []
  | high :: low :: rest => do
      let byte ← number? [high, low]
      let bytes ← bytes? rest
      return UInt8.ofNat byte :: bytes
  | [_] => none

end StampedPrograms.Hex
