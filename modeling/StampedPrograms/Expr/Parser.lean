import StampedPrograms.Expr.Basic
import StampedPrograms.Token.Lexer

/-!
Reading expressions from tokens by recursive descent. Every function takes the levels of nesting it
has left, and what it calls inside a level gets one less: an expression, a prefix operator, and each
link of a chain of binary operators take a level, which a chain keeps until its end.
-/

namespace StampedPrograms

open Token (Kind)

/-- The most levels of nesting. -/
def maxNesting : Nat := 64

/-- The levels of binary operators. -/
inductive Level where
  | disjunction
  | conjunction
  | equality
  | relation
  | sum
  | product
deriving DecidableEq

namespace Level

/-- From the loosest level to the tightest. -/
def all : List Level :=
  [.disjunction, .conjunction, .equality, .relation, .sum, .product]

@[simp] theorem length_all : all.length = 6 := rfl

/-- The operator a symbol stands for at a level; a single bar or ampersand means the double one. -/
def operator? : Level → String → Option BinaryOp
  | .disjunction, symbol => if symbol = "|" ∨ symbol = "||" then some .or else none
  | .conjunction, symbol => if symbol = "&" ∨ symbol = "&&" then some .and else none
  | .equality, symbol =>
      if symbol = "==" then some .eq else if symbol = "!=" then some .ne else none
  | .relation, symbol =>
      if symbol = "<" then some .lt
      else if symbol = "<=" then some .le
      else if symbol = ">" then some .gt
      else if symbol = ">=" then some .ge
      else none
  | .sum, symbol => if symbol = "+" then some .add else if symbol = "-" then some .sub else none
  | .product, symbol =>
      if symbol = "*" then some .mul
      else if symbol = "/" then some .div
      else if symbol = "%" then some .rem
      else none

/-- The operator of this level at the front of the tokens, and what follows it. -/
def link? (level : Level) : List Token → Option (BinaryOp × List Token)
  | ⟨.op symbol, _⟩ :: rest => (level.operator? symbol).map fun op => (op, rest)
  | _ => none

end Level

/-- The prefix operator at the front of the tokens, and what follows it. -/
def prefixOp? : List Token → Option (UnaryOp × List Token)
  | ⟨.op symbol, _⟩ :: rest =>
      if symbol = "!" then some (.not, rest)
      else if symbol = "-" then some (.neg, rest)
      else if symbol = "+" then some (.plus, rest)
      else none
  | _ => none

namespace Expr

/-- A tree and the tokens after it. -/
abbrev Parsed := Except Error (Expr × List Token)

/-- The next token is the first beyond the last level. -/
def tooNested (tokens : List Token) : Error :=
  .badSyntax (.nesting maxNesting) (tokens.head?.map Token.shown)

/-- The tokens after one of this kind. -/
def expect (kind : Kind) : List Token → Except Error (List Token)
  | [] => .error (.badSyntax (.endFor kind.shown) none)
  | token :: rest =>
      if token.kind = kind then .ok rest
      else .error (.badSyntax (.expected kind.shown token.shown token.offset) (some token.shown))

/-- The tokens after one of this kind, if that is the next one. -/
def next? (kind : Kind) : List Token → Option (List Token)
  | token :: rest => if token.kind = kind then some rest else none
  | [] => none

/-- A parameter after the word that announces it: a point and a name. -/
def parseParam (tokens : List Token) : Parsed := do
  match ← expect .dot tokens with
  | [] => .error (.badSyntax .endForParameter none)
  | token :: rest =>
      match token.kind with
      | .ident name => .ok (.param name, rest)
      | _ =>
          .error (.badSyntax (.expectedParameter token.shown token.offset) (some token.shown))

/-- What a name stands for. -/
def parseName (token : Token) (name : String) (rest : List Token) : Parsed :=
  if name = "_score" then .ok (.score, rest)
  else if name = "true" then .ok (.bool true, rest)
  else if name = "false" then .ok (.bool false, rest)
  else if name = "null" then .ok (.null, rest)
  else if name = "params" then parseParam rest
  else .error (.badSyntax (.unexpectedName token.shown token.offset) (some token.shown))

/-- Arguments between commas and the closing parenthesis. Each of them takes a token, so after as
many as there were tokens none is left for another one. -/
def parseArgs (parse : List Token → Parsed) :
    (count : Nat) → List Token → Except Error (List Expr × List Token)
  | 0, _ => do
      let (arg, tokens) ← parse []
      return ([arg], tokens)
  | count + 1, tokens => do
      let (arg, tokens) ← parse tokens
      match next? .comma tokens with
      | some tokens => do
          let (args, tokens) ← parseArgs parse count tokens
          return (arg :: args, tokens)
      | none => do
          let tokens ← expect .rightParen tokens
          return ([arg], tokens)

-- In the measures below a level of nesting weighs 20, more than all the steps inside one level.

mutual

/-- A disjunction, or a condition with its two outcomes. -/
def parseExpr : (left : Nat) → List Token → Parsed
  | 0, tokens => .error (tooNested tokens)
  | left + 1, tokens => do
      let (cond, tokens) ← parseChain left Level.all tokens
      match next? .question tokens with
      | none => return (cond, tokens)
      | some tokens => do
          let (yes, tokens) ← parseExpr left tokens
          let tokens ← expect .colon tokens
          let (no, tokens) ← parseExpr left tokens
          return (.ternary cond yes no, tokens)
termination_by left _ => 20 * left
decreasing_by all_goals simp <;> omega

/-- Operands of the tighter levels, joined to the left by operators of the first of these levels. -/
def parseChain (left : Nat) : (levels : List Level) → List Token → Parsed
  | [], tokens => parseUnary left tokens
  | level :: levels, tokens => do
      let (first, tokens) ← parseChain left levels tokens
      parseLinks left level levels first tokens
termination_by levels _ => 20 * left + 2 * levels.length + 5

/-- The links of a chain after its first operands. -/
def parseLinks (left : Nat) (level : Level) (levels : List Level) (first : Expr)
    (tokens : List Token) : Parsed :=
  match level.link? tokens with
  | none => .ok (first, tokens)
  | some (op, tokens) =>
      match left with
      | 0 => .error (tooNested tokens)
      | left + 1 => do
          let (second, tokens) ← parseChain left levels tokens
          parseLinks left level levels (.binary op first second) tokens
termination_by 20 * left + 2 * levels.length + 6

/-- Prefix operators before an operand. -/
def parseUnary (left : Nat) (tokens : List Token) : Parsed :=
  match prefixOp? tokens with
  | none => parsePostfix left tokens
  | some (op, tokens) =>
      match left with
      | 0 => .error (tooNested tokens)
      | left + 1 => do
          let (operand, tokens) ← parseUnary left tokens
          return (.unary op operand, tokens)
termination_by 20 * left + 4

/-- An operand, with at most one alternative for when it is null. -/
def parsePostfix (left : Nat) (tokens : List Token) : Parsed := do
  let (first, tokens) ← parsePrimary left tokens
  match next? (.op "??") tokens with
  | none => return (first, tokens)
  | some tokens => do
      let (second, tokens) ← parsePrimary left tokens
      return (.coalesce first second, tokens)
termination_by 20 * left + 3

/-- A literal, a name, a call, or an expression in parentheses. -/
def parsePrimary (left : Nat) : List Token → Parsed
  | [] => .error (.badSyntax .endForExpression none)
  | token :: rest =>
      match token.kind with
      | .leftParen => do
          let (inner, rest) ← parseExpr left rest
          let rest ← expect .rightParen rest
          return (inner, rest)
      | .number text => .ok (.number text, rest)
      | .string text => .ok (.string text, rest)
      | .call name => do
          let rest ← expect .leftParen rest
          match next? .rightParen rest with
          | some rest => return (.call name [], rest)
          | none => do
              let (args, rest) ← parseArgs (parseExpr left) rest.length rest
              return (.call name args, rest)
      | .ident name => parseName token name rest
      | _ => .error (.badSyntax (.unexpectedToken token.shown token.offset) (some token.shown))
termination_by _ => 20 * left + 2

end

/-- The tree of a list of tokens, all of which it takes. -/
def ofTokens (tokens : List Token) : Except Error Expr := do
  match ← parseExpr maxNesting tokens with
  | (e, []) => return e
  | (_, token :: _) =>
      .error (.badSyntax (.trailing token.shown token.offset) (some token.shown))

def ofSource (source : String) : Except Error Expr := do
  ofTokens (← Token.tokenize source)

end Expr

end StampedPrograms
