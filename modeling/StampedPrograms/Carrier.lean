import StampedPrograms.Compiled

/-!
Carriers: the shapes in which hosts hand over the source of an expression, and the targets it can be
compiled for.
-/

namespace StampedPrograms

/-- A bare text, or the member of an object that holds the source. -/
inductive Carrier where
  | text (source : String)
  | source (source : String)
  | scxq2 (source : String)
  | taggedScxq2 (source : String)
  | script (source : String)
  | body (source : String)
deriving DecidableEq

namespace Carrier

def content : Carrier → String
  | .text s => s
  | .source s => s
  | .scxq2 s => s
  | .taggedScxq2 s => s
  | .script s => s
  | .body s => s

/-- The name of a shape. -/
def shape : Carrier → String
  | .text _ => "text"
  | .source _ => "source"
  | .scxq2 _ => "scxq2"
  | .taggedScxq2 _ => "@scxq2"
  | .script _ => "script"
  | .body _ => "body"

/-- The text that a document holds under a name. -/
def textAt? (doc : Json) (name : String) : Option String :=
  (doc.member? name).bind Json.asString?

/-- The first of the shapes whose member holds a text. -/
def ofObject? (doc : Json) : Option Carrier :=
  ((textAt? doc "source").map .source).or <|
  ((textAt? doc "scxq2").map .scxq2).or <|
  ((textAt? doc "@scxq2").map .taggedScxq2).or <|
  (((doc.member? "script").bind fun script => textAt? script "source").map .script).or <|
  (textAt? doc "body").map .body

def ofJson : Json → Except Error Carrier
  | .string s => .ok (.text s)
  | .object members =>
      match ofObject? (.object members) with
      | some carrier => .ok carrier
      | none => .error (.validation .carrierWithoutSource)
  | doc => .error (.validation (.carrierShape doc))

end Carrier

/-- A language that expressions are compiled to. -/
structure Target where
  id : String
  abi : String
  versionMajor : UInt32
deriving DecidableEq

namespace Target

def all : List Target :=
  [⟨scriptTarget, scriptAbi, scriptVersionMajor⟩]

def find? (id : String) : Option Target :=
  all.find? fun target => target.id == id

instance : Documented Target where
  toJson target := .ofPairs [
    ("id", .string target.id),
    ("abi", .string target.abi),
    ("version_major", .ofUInt32 target.versionMajor)]

end Target

/-- What a carrier was compiled to for a target. -/
structure TargetOutput where
  target : String
  compiled : Compiled

instance : Documented TargetOutput where
  toJson out := .ofPairs [
    ("target", .string out.target),
    ("painless", .string out.compiled.script),
    ("ast", toJson out.compiled.tree),
    ("abi", (out.compiled.stamp.map toJson).getD .null)]

def compileForTarget (id : String) (carrier : Carrier) (options : CompileOptions) :
    Except Error TargetOutput :=
  match Target.find? id with
  | none => .error (.validation (.unknownTarget id))
  | some target => do return ⟨target.id, ← compile carrier.content options⟩

end StampedPrograms
