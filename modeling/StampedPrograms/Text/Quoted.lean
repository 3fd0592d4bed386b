import StampedPrograms.Text.Hex

/-!
Quoted text in its two forms: JSON strings in double quotes, where quotes, backslashes and control
characters are escaped, and script literals in single quotes, where only quotes and backslashes are.
-/

namespace StampedPrograms.Quoted

/-- A character inside a JSON string. -/
def jsonChar (c : Char) : List Char :=
  if c = '"' then ['\\', '"']
  else if c = '\\' then ['\\', '\\']
  else if c = '\x08' then ['\\', 'b']
  else if c = '\x0c' then ['\\', 'f']
  else if c = '\n' then ['\\', 'n']
  else if c = '\r' then ['\\', 'r']
  else if c = '\t' then ['\\', 't']
  else if c.toNat < 0x20 then '\\' :: 'u' :: Hex.digits 4 c.toNat
  else [c]

def json (s : String) : List Char :=
  '"' :: (s.toList.flatMap jsonChar ++ ['"'])

/-- A character inside a script literal. -/
def scriptChar (c : Char) : List Char :=
  if c = '\\' ∨ c = '\'' then ['\\', c] else [c]

def script (s : String) : List Char :=
  '\'' :: (s.toList.flatMap scriptChar ++ ['\''])

end StampedPrograms.Quoted
