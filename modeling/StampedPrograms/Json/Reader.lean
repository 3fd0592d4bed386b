import StampedPrograms.Json.Basic
import StampedPrograms.Text.Hex

/-!
Reading JSON text. The text is cut into lexemes, and the lexemes build the document on a stack of
the arrays and objects that are still open. A literal without point and exponent that fits 64 bits
is an integer, every other one the nearest double.
-/

namespace StampedPrograms.Json

/-- A bracket or separator, or a whole string, number or name. -/
inductive Lexeme where
  | mark (c : Char)
  | string (s : String)
  | scalar (doc : Json)

/-- White space between lexemes. -/
def isGap (c : Char) : Bool :=
  c == ' ' || c == '\t' || c == '\n' || c == '\r'

/-- The code of four hexadecimal digits. -/
def code4? : List Char → Option (Nat × List Char)
  | a :: b :: c :: d :: rest => do return (← Hex.number? [a, b, c, d], rest)
  | _ => none

/-- The character of an escape after its backslash; a pair of surrogates is one character. -/
def unescape? : List Char → Option (Char × List Char)
  | '"' :: rest => some ('"', rest)
  | '\\' :: rest => some ('\\', rest)
  | '/' :: rest => some ('/', rest)
  | 'b' :: rest => some ('\x08', rest)
  | 'f' :: rest => some ('\x0c', rest)
  | 'n' :: rest => some ('\n', rest)
  | 'r' :: rest => some ('\r', rest)
  | 't' :: rest => some ('\t', rest)
  | 'u' :: rest => do
      let (high, rest) ← code4? rest
      if 0xD800 ≤ high ∧ high < 0xDC00 then
        match rest with
        | '\\' :: 'u' :: rest =>
            let (low, rest) ← code4? rest
            guard (0xDC00 ≤ low ∧ low < 0xE000)
            return (Char.ofNat (0x10000 + (high - 0xD800) * 0x400 + (low - 0xDC00)), rest)
        | _ => none
      else
        guard (¬ (0xDC00 ≤ high ∧ high < 0xE000))
        return (Char.ofNat high, rest)
  | _ => none

/-- The rest of a string after its opening quote, with at most so many characters in it. -/
def readString? : (fuel : Nat) → (done : List Char) → List Char → Option (String × List Char)
  | 0, _, _ => none
  | _ + 1, done, '"' :: rest => some (String.ofList done.reverse, rest)
  | fuel + 1, done, '\\' :: rest => do
      let (c, rest) ← unescape? rest
      readString? fuel (c :: done) rest
  | fuel + 1, done, c :: rest =>
      if c.toNat < 0x20 then none else readString? fuel (c :: done) rest
  | _, _, [] => none

def digitsValue (cs : List Char) : Nat :=
  Nat.ofDigitChars 10 cs 0

/-- The double nearest to a decimal number. Far outside the range of the doubles only the size of
the number matters. -/
def decimalDouble (negative : Bool) (coefficient : Nat) (exponent : Int) : Binary64 :=
  let point : Int := (Nat.toDigits 10 coefficient).length + exponent
  if coefficient = 0 ∨ point < -400 then .signedZero negative
  else if 400 < point then .signedInfinity negative
  else .ofScaled negative coefficient exponent

/-- A double as a document, if it is finite. -/
def ofBinary64? (x : Binary64) : Option Json :=
  if h : x.IsFinite then some (.number (.float x h)) else none

/-- The number given by its sign, the digits before and after the point, and the exponent. -/
def numeral? (negative : Bool) (whole fraction : List Char) (exponent : Int) (isInteger : Bool) :
    Option Json :=
  let coefficient := digitsValue (whole ++ fraction)
  let i : Int := if negative then -coefficient else coefficient
  if h : isInteger = true ∧ ¬ (negative = true ∧ coefficient = 0) ∧ Fits64 i then
    some (.number (.int i h.2.2))
  else ofBinary64? (decimalDouble negative coefficient (exponent - fraction.length))

/-- The exponent of a number after its mark: a sign and digits. -/
def readExponent? (cs : List Char) : Option (Int × List Char) :=
  let (negative, cs) := match cs with
    | '-' :: rest => (true, rest)
    | '+' :: rest => (false, rest)
    | _ => (false, cs)
  let (digits, rest) := cs.span Char.isDigit
  if digits.isEmpty then none
  else some (if negative then -digitsValue digits else digitsValue digits, rest)

def readNumber? (cs : List Char) : Option (Json × List Char) := do
  let (negative, cs) := match cs with
    | '-' :: rest => (true, rest)
    | _ => (false, cs)
  let (whole, cs) := cs.span Char.isDigit
  guard (¬ whole.isEmpty ∧ (whole.length = 1 ∨ whole.head? ≠ some '0'))
  let (fraction, cs) ← match cs with
    | '.' :: rest =>
        let (fraction, rest) := rest.span Char.isDigit
        if fraction.isEmpty then none else some (some fraction, rest)
    | _ => some (none, cs)
  let (exponent, cs) ← match cs with
    | 'e' :: rest => (readExponent? rest).map fun (e, rest) => (some e, rest)
    | 'E' :: rest => (readExponent? rest).map fun (e, rest) => (some e, rest)
    | _ => some (none, cs)
  let doc ← numeral? negative whole (fraction.getD []) (exponent.getD 0)
    (fraction.isNone && exponent.isNone)
  return (doc, cs)

/-- The first lexeme of a text that does not start with a gap. -/
def lexeme? (cs : List Char) : Option (Lexeme × List Char) :=
  match cs with
  | '"' :: rest => do
      let (s, rest) ← readString? (rest.length + 1) [] rest
      return (.string s, rest)
  | 'n' :: 'u' :: 'l' :: 'l' :: rest => some (.scalar .null, rest)
  | 't' :: 'r' :: 'u' :: 'e' :: rest => some (.scalar (.bool true), rest)
  | 'f' :: 'a' :: 'l' :: 's' :: 'e' :: rest => some (.scalar (.bool false), rest)
  | c :: rest =>
      if ['[', ']', '\x7b', '\x7d', ',', ':'].contains c then some (.mark c, rest)
      else do
        let (doc, rest) ← readNumber? cs
        return (.scalar doc, rest)
  | [] => none

/-- All lexemes, of which there are at most so many. -/
def lexemes? : (fuel : Nat) → (done : List Lexeme) → List Char → Option (List Lexeme)
  | fuel, done, cs =>
      match cs.dropWhile isGap with
      | [] => some done.reverse
      | cs =>
          match fuel with
          | 0 => none
          | fuel + 1 => do
              let (lexeme, rest) ← lexeme? cs
              lexemes? fuel (lexeme :: done) rest

/-- An open array or object with what it holds so far, the latest first. -/
inductive Frame where
  | array (done : List Json)
  | object (done : List (String × Json))
  | member (done : List (String × Json)) (name : String)

/-- What may come next: a value, an item or member after a separator, a name, a colon, or a
separator or closing bracket. -/
inductive Awaiting where
  | value
  | firstValue
  | name
  | firstName
  | colon
  | separator
deriving DecidableEq

structure Progress where
  awaiting : Awaiting
  frames : List Frame
  result : Option Json

/-- Puts a finished document where it belongs. -/
def Progress.deliver (doc : Json) : List Frame → Option Progress
  | [] => some ⟨.separator, [], some doc⟩
  | .array done :: frames => some ⟨.separator, .array (doc :: done) :: frames, none⟩
  | .member done name :: frames => some ⟨.separator, .object ((name, doc) :: done) :: frames, none⟩
  | .object _ :: _ => none

def Progress.step (p : Progress) (lexeme : Lexeme) : Option Progress :=
  if p.result.isSome then none
  else match p.awaiting, lexeme, p.frames with
  | .value, .string s, frames => deliver (.string s) frames
  | .firstValue, .string s, frames => deliver (.string s) frames
  | .value, .scalar doc, frames => deliver doc frames
  | .firstValue, .scalar doc, frames => deliver doc frames
  | .value, .mark '[', frames => some ⟨.firstValue, .array [] :: frames, none⟩
  | .firstValue, .mark '[', frames => some ⟨.firstValue, .array [] :: frames, none⟩
  | .value, .mark '\x7b', frames => some ⟨.firstName, .object [] :: frames, none⟩
  | .firstValue, .mark '\x7b', frames => some ⟨.firstName, .object [] :: frames, none⟩
  | .firstValue, .mark ']', .array done :: frames => deliver (.array done.reverse) frames
  | .separator, .mark ']', .array done :: frames => deliver (.array done.reverse) frames
  | .separator, .mark ',', .array done :: frames => some ⟨.value, .array done :: frames, none⟩
  | .firstName, .mark '\x7d', .object done :: frames => deliver (ofPairs done.reverse) frames
  | .separator, .mark '\x7d', .object done :: frames => deliver (ofPairs done.reverse) frames
  | .separator, .mark ',', .object done :: frames => some ⟨.name, .object done :: frames, none⟩
  | .name, .string s, .object done :: frames => some ⟨.colon, .member done s :: frames, none⟩
  | .firstName, .string s, .object done :: frames => some ⟨.colon, .member done s :: frames, none⟩
  | .colon, .mark ':', frames => some ⟨.value, frames, none⟩
  | _, _, _ => none

/-- The document a text holds, if it is one whole JSON text. -/
def read? (text : String) : Option Json := do
  let cs := text.toList
  let lexemes ← lexemes? cs.length [] cs
  let progress ← lexemes.foldlM Progress.step ⟨.value, [], none⟩
  progress.result

end StampedPrograms.Json
