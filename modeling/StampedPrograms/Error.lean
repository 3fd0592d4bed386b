import StampedPrograms.Json.Printer
import StampedPrograms.Value.Basic

/-!
Why an operation fails. Every error has a code, which tells its class, and a message, which is
worded here and nowhere else. `reported` causes carry words that a host supplies.
-/

namespace StampedPrograms

/-- A type of the data model that canonical values have no place for. -/
inductive UnsupportedType where
  | signed128
  | unsigned128
  | bytes
deriving DecidableEq

def UnsupportedType.name : UnsupportedType → String
  | .signed128 => "i128"
  | .unsigned128 => "u128"
  | .bytes => "bytes"

/-- What is wrong with a document, an option or an argument. -/
inductive Defect where
  | nonFinite (x : Binary64)
  | nonFiniteDatum (x : Binary64)
  | unsupportedType (kind : UnsupportedType)
  | keyBeforeValue
  | keyNotString (kind : Value.Kind)
  | valueBeforeKey
  | danglingKey
  | policyNotObject
  | policyVersion
  | policyDepth
  | policyFlag (name : String) (found : Json)
  | policyList (name : String) (found : Json)
  | policyListEntry (name : String)
  | optionDepth (depth : UInt32)
  | packFormat
  | packProgram
  | packName (name : String)
  | packBlocks
  | blockNotObject (index : Nat)
  | blockOp (index : Nat)
  | blockArgs (index : Nat)
  | argNotString (op name : String)
  | argMissing (op name : String)
  | argEmpty (op name : String)
  | seedNotObject
  | seedRow (store : String)
  | recordNotObject
  | selectionNotArray
  | selectionEntry
  | limit
  | carrierShape (found : Json)
  | carrierWithoutSource
  | unknownTarget (id : String)
  | noStamp
  | vectorWithoutStamp (name : String)
  | goldenFormat (found : String)
  | conformanceFormat (found : String)
  | reported (text : String)

/-- Where a source text departs from the grammar of expressions. Offsets count bytes. -/
inductive SyntaxFault where
  | unexpectedCharacter (offset : Nat)
  | unterminatedString (offset : Nat)
  | invalidEscape (offset : Nat)
  | missingCallName (offset : Nat)
  | nesting (limit : Nat)
  | unexpectedToken (shown : String) (offset : Nat)
  | unexpectedName (shown : String) (offset : Nat)
  | expected (wanted shown : String) (offset : Nat)
  | expectedParameter (shown : String) (offset : Nat)
  | trailing (shown : String) (offset : Nat)
  | endForExpression
  | endForParameter
  | endFor (wanted : String)
  | reported (text : String)

/-- What a policy forbids an expression. -/
inductive Violation where
  | tooDeep (limit : UInt32)
  | illegalCall (name : String)
  | fieldNotAllowed (name : String)
  | fieldNotLiteral (call : String)
  | parameterNotAllowed (name : String)
  | noLowering (name : String)
  | scriptTooLong (limit : Nat)
  | reported (text : String)

/-- What a vector of a golden or conformance set pins. -/
inductive VectorPart where
  | script
  | stampHash
  | envelopeField (field : String)
  | reply
  | replyEvent
  | replyInput
  | emissions
  | writes

/-- What was recomputed and found different. -/
inductive Subject where
  | stampHash
  | envelopeField (field : String)
  | policyHash
  | symbolsHash
  | goldenSymbols
  | conformanceSymbols
  | vector (name : String) (part : VectorPart)
  | reported (text : String)

inductive Error where
  | validation (defect : Defect)
  | badSyntax (fault : SyntaxFault) (token : Option String)
  | callArity (name : String) (min max got : Nat)
  | policyViolation (violation : Violation)
  | abiMismatch (subject : Subject) (expected actual : String)
  | admissionDenied (op : String)
  | capabilityDisabled (capability op : String)
  | unsupportedOperation (op : String)
  | capabilityUnavailable (capability : String)

def Defect.message : Defect → String
  | .nonFinite x => "non-finite number not allowed: " ++ String.ofList x.canonicalText
  | .nonFiniteDatum x =>
      "validation error: non-finite number not allowed: " ++ String.ofList x.canonicalText
  | .unsupportedType kind => "unsupported type in canonical value: " ++ kind.name
  | .keyBeforeValue => "serialize_key called before previous key was consumed"
  | .keyNotString kind => "map keys must be strings, found " ++ kind.name
  | .valueBeforeKey => "serialize_value called before key"
  | .danglingKey => "map serialization ended with dangling key"
  | .policyNotObject => "policy must be an object"
  | .policyVersion => "policy must be matrix_policy_version=1"
  | .policyDepth => "policy.max_depth out of bounds (1..=4096)"
  | .policyFlag name found => "policy." ++ name ++ " must be a boolean, found " ++ found.print
  | .policyList name found =>
      "policy." ++ name ++ " must be an array of strings, found " ++ found.print
  | .policyListEntry name => "policy." ++ name ++ " entries must be strings"
  | .optionDepth depth => "maxDepth " ++ depth.toNat.repr ++ " out of bounds (1..=4096)"
  | .packFormat => "program pack must be format=matrix.program.v1"
  | .packProgram => "missing program object"
  | .packName name => "program." ++ name ++ " must be a string"
  | .packBlocks => "program.blocks must be an array"
  | .blockNotObject index => "block " ++ index.repr ++ " must be an object"
  | .blockOp index => "block " ++ index.repr ++ ": op must be a non-empty string"
  | .blockArgs index => "block " ++ index.repr ++ ": args must be an object"
  | .argNotString op name => op ++ " missing string args." ++ name
  | .argMissing op name => op ++ " missing args." ++ name
  | .argEmpty op name => op ++ " args." ++ name ++ " must not be empty"
  | .seedNotObject => "store seed must be an object"
  | .seedRow store => "seed rows of '" ++ store ++ "' must be objects"
  | .recordNotObject => "idb.put value must be an object"
  | .selectionNotArray => "SELECT.fields must be an array"
  | .selectionEntry => "SELECT.fields entries must be strings"
  | .limit => "LIMIT must be a non-negative number"
  | .carrierShape found => "bridge input must be a string or an object, found " ++ found.print
  | .carrierWithoutSource => "could not find expression source in bridge input"
  | .unknownTarget id => "unknown target '" ++ id ++ "'"
  | .noStamp => "compile result carries no ABI stamp"
  | .vectorWithoutStamp name => "vector '" ++ name ++ "' produced no ABI stamp"
  | .goldenFormat found => "golden set must be format=scxq2-es.golden.v1, found '" ++ found ++ "'"
  | .conformanceFormat found =>
      "conformance set must be format=matrix.conformance.v1, found '" ++ found ++ "'"
  | .reported text => text

/-- The token found and its place, after what was wrong with it. -/
def SyntaxFault.found (what shown : String) (offset : Nat) : String :=
  what ++ ": '" ++ shown ++ "' at offset " ++ offset.repr

def SyntaxFault.message : SyntaxFault → String
  | .unexpectedCharacter offset => "unexpected character at offset " ++ offset.repr
  | .unterminatedString offset => "unterminated string starting at offset " ++ offset.repr
  | .invalidEscape offset => "invalid escape at offset " ++ offset.repr
  | .missingCallName offset => "expected call name after '@' at offset " ++ offset.repr
  | .nesting limit => "expression nesting exceeds " ++ limit.repr
  | .unexpectedToken shown offset => found "unexpected token" shown offset
  | .unexpectedName shown offset => found "unexpected identifier" shown offset
  | .expected wanted shown offset => found ("expected '" ++ wanted ++ "'") shown offset
  | .expectedParameter shown offset =>
      found "expected parameter name after 'params.'" shown offset
  | .trailing shown offset => found "unexpected tokens at end of input" shown offset
  | .endForExpression => "expected an expression, found end of input"
  | .endForParameter => "expected parameter name after 'params.', found end of input"
  | .endFor wanted => "expected '" ++ wanted ++ "', found end of input"
  | .reported text => text

def Violation.message : Violation → String
  | .tooDeep limit => "expression too deep (max depth " ++ limit.toNat.repr ++ ")"
  | .illegalCall name => "illegal call @" ++ name
  | .fieldNotAllowed name => "field '" ++ name ++ "' not allowed"
  | .fieldNotLiteral call => "@" ++ call ++ " requires a string literal field name"
  | .parameterNotAllowed name => "param '" ++ name ++ "' not allowed"
  | .noLowering name => "no lowering for @" ++ name
  | .scriptTooLong limit => "emitted script exceeds " ++ limit.repr ++ " bytes"
  | .reported text => text

def VectorPart.name : VectorPart → String
  | .script => "painless"
  | .stampHash => "abi.hash"
  | .envelopeField field => "abi.envelope." ++ field
  | .reply => "reply"
  | .replyEvent => "reply.event"
  | .replyInput => "reply.input"
  | .emissions => "emits"
  | .writes => "writes"

def Subject.name : Subject → String
  | .stampHash => "abi.hash"
  | .envelopeField field => "abi.envelope." ++ field
  | .policyHash => "abi.policy_hash"
  | .symbolsHash => "abi.symbols_hash"
  | .goldenSymbols => "golden symbols_hash (library drift)"
  | .conformanceSymbols => "conformance symbols_hash (library drift)"
  | .vector name part => "vector '" ++ name ++ "' " ++ part.name
  | .reported text => text

namespace Error

def code : Error → String
  | .validation _ => "VALIDATION"
  | .badSyntax _ _ => "SYNTAX"
  | .callArity _ _ _ _ => "CALL_ARITY"
  | .policyViolation _ => "POLICY_VIOLATION"
  | .abiMismatch _ _ _ => "ABI_MISMATCH"
  | .admissionDenied _ => "POLICY_DENY"
  | .capabilityDisabled _ _ => "CAPABILITY_DISABLED"
  | .unsupportedOperation _ => "UNSUPPORTED_OP"
  | .capabilityUnavailable _ => "CAPABILITY_UNAVAILABLE"

/-- A range of argument counts; a single count stands alone. -/
def arityText (min max : Nat) : String :=
  if min = max then min.repr else min.repr ++ ".." ++ max.repr

def message : Error → String
  | .validation defect => "validation error: " ++ defect.message
  | .badSyntax fault _ => "syntax error: " ++ fault.message
  | .callArity name min max got =>
      "call arity error: @" ++ name ++ " expects " ++ arityText min max ++ " args, got " ++ got.repr
  | .policyViolation violation => "policy violation: " ++ violation.message
  | .abiMismatch subject expected actual =>
      "ABI_MISMATCH " ++ subject.name ++ "\nexpected: " ++ expected ++ "\n     got: " ++ actual
  | .admissionDenied op => "POLICY_DENY op='" ++ op ++ "'"
  | .capabilityDisabled capability op =>
      "capability '" ++ capability ++ "' is disabled by policy (op '" ++ op ++ "')"
  | .unsupportedOperation op => "UNSUPPORTED_OP '" ++ op ++ "'"
  | .capabilityUnavailable capability => "capability '" ++ capability ++ "' is not available"

end Error

/-- The items of a list, all of which must be strings. -/
def Json.strings (otherwise : Defect) (items : List Json) : Except Error (List String) :=
  items.mapM fun
    | .string s => .ok s
    | _ => .error (.validation otherwise)

end StampedPrograms
