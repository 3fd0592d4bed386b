import StampedPrograms.Error
import StampedPrograms.Digest
import StampedPrograms.Json.Readable

/-!
Policies: what a program may do, and what an expression inside it may refer to. A raw document is
checked and brought into one shape, where absent entries have their defaults and lists are sorted by
UTF-16 code units, so that documents that mean the same have one identity.
-/

namespace StampedPrograms

/-- The largest depth a policy may grant. -/
def maxDepthLimit : Nat := 4096

structure Policy where
  version : UInt32
  maxDepth : UInt32
  allowNetwork : Bool
  allowExec : Bool
  allowFsRead : Bool
  allowFsWrite : Bool
  allowStorage : Bool
  allowCrypto : Bool
  allowedRoutes : List String
  allowedPlugins : List String
  fieldAllowlist : List String
  paramAllowlist : List String
deriving DecidableEq

namespace Policy

instance : Documented Policy where
  toJson policy := .ofPairs [
    ("matrix_policy_version", .ofUInt32 policy.version),
    ("max_depth", .ofUInt32 policy.maxDepth),
    ("allow_network", .bool policy.allowNetwork),
    ("allow_exec", .bool policy.allowExec),
    ("allow_fs_read", .bool policy.allowFsRead),
    ("allow_fs_write", .bool policy.allowFsWrite),
    ("allow_idb", .bool policy.allowStorage),
    ("allow_crypto", .bool policy.allowCrypto),
    ("allowed_routes", .ofStrings policy.allowedRoutes),
    ("allowed_plugins", .ofStrings policy.allowedPlugins),
    ("field_allowlist", .ofStrings policy.fieldAllowlist),
    ("param_allowlist", .ofStrings policy.paramAllowlist)]

/-- A policy that is in its one shape already; nothing is checked or defaulted. -/
instance : Readable Policy where
  ofJson? doc := do
    return {
      version := ← doc.field? "matrix_policy_version"
      maxDepth := ← doc.field? "max_depth"
      allowNetwork := ← doc.field? "allow_network"
      allowExec := ← doc.field? "allow_exec"
      allowFsRead := ← doc.field? "allow_fs_read"
      allowFsWrite := ← doc.field? "allow_fs_write"
      allowStorage := ← doc.field? "allow_idb"
      allowCrypto := ← doc.field? "allow_crypto"
      allowedRoutes := ← doc.field? "allowed_routes"
      allowedPlugins := ← doc.field? "allowed_plugins"
      fieldAllowlist := ← doc.field? "field_allowlist"
      paramAllowlist := ← doc.field? "param_allowlist" }

/-- A switch of a policy document, off when absent or null. -/
def readFlag (doc : Json) (name : String) : Except Error Bool :=
  match doc.present? name with
  | none => .ok false
  | some (.bool b) => .ok b
  | some found => .error (.validation (.policyFlag name found))

/-- A list of a policy document, sorted; empty when absent or null. -/
def readList (doc : Json) (name : String) : Except Error (List String) :=
  match doc.present? name with
  | none => .ok []
  | some (.array items) => do return Utf16.sort (← Json.strings (.policyListEntry name) items)
  | some found => .error (.validation (.policyList name found))

/-- The depth of a policy document, 64 when absent or null: an integral number from 1 to the limit.
-/
def readDepth (doc : Json) : Except Error UInt32 :=
  match doc.present? "max_depth" with
  | none => .ok 64
  | some found =>
      match found.asBinary64? with
      | none => .error (.validation .policyDepth)
      | some x =>
          if x.isIntegral = true ∧ 1 ≤ x.truncate ∧ x.truncate ≤ maxDepthLimit then
            .ok (UInt32.ofNat x.whole)
          else .error (.validation .policyDepth)

/-- Whether the document says that it follows version 1. -/
def isVersion1 (doc : Json) : Bool :=
  match (doc.member? "matrix_policy_version").bind Json.asBinary64? with
  | some x => x.sameNumber (.ofNat 1)
  | none => false

def normalize (doc : Json) : Except Error Policy := do
  if doc.asObject?.isNone then throw (.validation .policyNotObject)
  if !isVersion1 doc then throw (.validation .policyVersion)
  let maxDepth ← readDepth doc
  let allowNetwork ← readFlag doc "allow_network"
  let allowExec ← readFlag doc "allow_exec"
  let allowFsRead ← readFlag doc "allow_fs_read"
  let allowFsWrite ← readFlag doc "allow_fs_write"
  let allowStorage ← readFlag doc "allow_idb"
  let allowCrypto ← readFlag doc "allow_crypto"
  let allowedRoutes ← readList doc "allowed_routes"
  let allowedPlugins ← readList doc "allowed_plugins"
  let fieldAllowlist ← readList doc "field_allowlist"
  let paramAllowlist ← readList doc "param_allowlist"
  return { version := 1, maxDepth, allowNetwork, allowExec, allowFsRead, allowFsWrite, allowStorage,
           allowCrypto, allowedRoutes, allowedPlugins, fieldAllowlist, paramAllowlist }

def digest (policy : Policy) : String :=
  namespacedDigest "policy" policy

def allowsRoute (policy : Policy) (op : String) : Bool :=
  policy.allowedRoutes.contains op

end Policy

/-- What an expression is restricted to: a depth, and the fields and parameters it may name. -/
structure ExpressionPolicy where
  maxDepth : UInt32
  fields : List String
  params : List String
deriving DecidableEq

namespace ExpressionPolicy

instance : Documented ExpressionPolicy where
  toJson policy := .ofPairs [
    ("maxDepth", .ofUInt32 policy.maxDepth),
    ("fields", .ofStrings policy.fields),
    ("params", .ofStrings policy.params)]

/-- The restrictions that the policy of a program puts on the expressions in it. -/
def ofPolicy (policy : Policy) : ExpressionPolicy :=
  ⟨policy.maxDepth, policy.fieldAllowlist, policy.paramAllowlist⟩

def allowsField (policy : ExpressionPolicy) (name : String) : Bool :=
  policy.fields.contains name

def allowsParam (policy : ExpressionPolicy) (name : String) : Bool :=
  policy.params.contains name

end ExpressionPolicy

/-- What a caller asks of the compiler. -/
structure CompileOptions where
  maxDepth : UInt32 := 32
  fields : List String := []
  params : List String := []
  includeStamp : Bool := true
deriving DecidableEq

namespace CompileOptions

instance : Documented CompileOptions where
  toJson options := .ofPairs [
    ("maxDepth", .ofUInt32 options.maxDepth),
    ("fields", .ofStrings options.fields),
    ("params", .ofStrings options.params)]

/-- The restrictions in one shape: the lists sorted, the depth from 1 to the limit. -/
def normalize (options : CompileOptions) : Except Error ExpressionPolicy :=
  if 1 ≤ options.maxDepth.toNat ∧ options.maxDepth.toNat ≤ maxDepthLimit then
    .ok ⟨options.maxDepth, Utf16.sort options.fields, Utf16.sort options.params⟩
  else .error (.validation (.optionDepth options.maxDepth))

end CompileOptions

end StampedPrograms
