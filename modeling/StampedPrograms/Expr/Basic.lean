/-!
Expression trees. A number is kept as it is written.
-/

namespace StampedPrograms

inductive UnaryOp where
  | not
  | neg
  | plus
deriving DecidableEq

inductive BinaryOp where
  | or
  | and
  | eq
  | ne
  | lt
  | le
  | gt
  | ge
  | add
  | sub
  | mul
  | div
  | rem
deriving DecidableEq

def UnaryOp.symbol : UnaryOp → String
  | .not => "!"
  | .neg => "-"
  | .plus => "+"

def BinaryOp.symbol : BinaryOp → String
  | .or => "||"
  | .and => "&&"
  | .eq => "=="
  | .ne => "!="
  | .lt => "<"
  | .le => "<="
  | .gt => ">"
  | .ge => ">="
  | .add => "+"
  | .sub => "-"
  | .mul => "*"
  | .div => "/"
  | .rem => "%"

def UnaryOp.all : List UnaryOp :=
  [.not, .neg, .plus]

def BinaryOp.all : List BinaryOp :=
  [.or, .and, .eq, .ne, .lt, .le, .gt, .ge, .add, .sub, .mul, .div, .rem]

inductive Expr where
  | number (text : String)
  | string (text : String)
  | bool (b : Bool)
  | null
  | score
  | param (name : String)
  | unary (op : UnaryOp) (operand : Expr)
  | binary (op : BinaryOp) (left right : Expr)
  | ternary (cond yes no : Expr)
  | coalesce (left right : Expr)
  | call (name : String) (args : List Expr)

namespace Expr

/-- The direct parts of a tree in source order. -/
def children : Expr → List Expr
  | .number _ => []
  | .string _ => []
  | .bool _ => []
  | .null => []
  | .score => []
  | .param _ => []
  | .unary _ operand => [operand]
  | .binary _ left right => [left, right]
  | .ternary cond yes no => [cond, yes, no]
  | .coalesce left right => [left, right]
  | .call _ args => args

end Expr

end StampedPrograms
