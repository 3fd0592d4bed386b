/-!
Tokens of expression sources.
-/

namespace StampedPrograms

inductive Token.Kind where
  | leftParen
  | rightParen
  | comma
  | question
  | colon
  | dot
  | op (symbol : String)
  | ident (name : String)
  | call (name : String)
  | string (text : String)
  | number (text : String)
deriving DecidableEq

/-- A token and the place of its first byte in the source. -/
structure Token where
  kind : Token.Kind
  offset : Nat
deriving DecidableEq

namespace Token

/-- How a token is shown in messages; a string is shown as the text it stands for. -/
def Kind.shown : Kind → String
  | .leftParen => "("
  | .rightParen => ")"
  | .comma => ","
  | .question => "?"
  | .colon => ":"
  | .dot => "."
  | .op symbol => symbol
  | .ident name => name
  | .call name => "@" ++ name
  | .string text => "'" ++ text ++ "'"
  | .number text => text

def shown (token : Token) : String :=
  token.kind.shown

end Token

end StampedPrograms
