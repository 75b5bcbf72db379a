import EffectChain.Data.Table
import EffectChain.Text.Basic

/-!
# EffectChain.Registry.Namespaces

The names that modules export, each under a namespace and on behalf of an owner.

The records stand in the order of their first registration, which is the order
bare names are resolved in.  A record may be gated by a flag; only active records
are found.
-/

namespace EffectChain

/-! ## refusals -/

/-- Why a registration is refused. -/
inductive RegistryError where
  | invalidExport (space name : String)
  | duplicateExport (export_ owner : String)
  | invalidEnum (path value : String)
  | unnamedOp
  | invalidOp (op arg : String)
  deriving DecidableEq, Repr, Inhabited

namespace RegistryError

def message : RegistryError → String
  | .invalidExport .. => "invalid export record"
  | .duplicateExport .. => "export already registered by another owner"
  | .invalidEnum .. => "invalid enum value"
  | .unnamedOp | .invalidOp .. => "invalid operation spec"

/-- What the refusal is about, as named texts. -/
def attrs : RegistryError → List (String × String)
  | .invalidExport space name => [("namespace", space), ("name", name)]
  | .duplicateExport e owner => [("export", e), ("owner", owner)]
  | .invalidEnum path value => [("path", path), ("value", value)]
  | .unnamedOp => [("reason", "empty name")]
  | .invalidOp op arg => [("op", op), ("arg", arg)]

end RegistryError

/-! ## exports -/

/-- A name exported under a namespace by an owner, perhaps behind a flag. -/
structure Export where
  space : String := ""
  name : String := ""
  flag : String := ""
  owner : String := ""
  deriving DecidableEq, Repr, Inhabited

namespace Export

/-- The name with its namespace before it, if it has one. -/
def canonical (e : Export) : String :=
  if e.space = "" then e.name else e.space ++ "." ++ e.name

/-- What a record is known by. -/
def key (e : Export) : String × String := (e.space, e.name)

/-- A record has a namespace and a name without dots. -/
def isValid (e : Export) : Bool := e.space ≠ "" && e.name ≠ "" && !e.name.contains '.'

end Export

structure Namespaces where
  /-- The records in the order of their first registration. -/
  records : List Export := []
  /-- The state of every flag that has none of its own. -/
  flagsOn : Bool := true
  flags : Table Bool := {}
  deriving Repr, Inhabited

namespace Namespaces

/-- The record of a key, active or not. -/
def find? (n : Namespaces) (key : String × String) : Option Export :=
  n.records.find? (·.key = key)

/-- Whether a record is enabled. -/
def isActive (n : Namespaces) (e : Export) : Bool :=
  e.flag = "" || n.flags.getD e.flag n.flagsOn

/-- Puts a record in place of the one with its key, or last. -/
def put (e : Export) : List Export → List Export
  | [] => [e]
  | r :: rs => if r.key = e.key then e :: rs else r :: put e rs

/-- The first reason to refuse a batch. -/
def refusal? (n : Namespaces) (owner : String) (batch : List Export) : Option RegistryError :=
  batch.findSome? fun e =>
    if !e.isValid then some (.invalidExport e.space e.name)
    else match n.find? e.key with
      | some prev =>
        if prev.owner ≠ owner then some (.duplicateExport e.canonical prev.owner) else none
      | none => none

/-- Adds records on behalf of an owner.  A key that another owner holds refuses
the whole batch. -/
def register (n : Namespaces) (owner : String) (batch : List Export) :
    Except RegistryError Namespaces :=
  match n.refusal? owner batch with
  | some e => .error e
  | none => .ok { n with records := batch.foldl (fun rs e => put { e with owner } rs) n.records }

/-- The records of an owner. -/
def ownedBy (n : Namespaces) (owner : String) : List Export := n.records.filter (·.owner = owner)

/-- Removes the records of an owner. -/
def unregister (n : Namespaces) (owner : String) : Namespaces :=
  { n with records := n.records.filter (·.owner ≠ owner) }

def setFlagsEnabled (n : Namespaces) (on : Bool) : Namespaces := { n with flagsOn := on }

def setFlag (n : Namespaces) (flag : String) (on : Bool) : Namespaces :=
  { n with flags := n.flags.insert flag on }

def clearFlag (n : Namespaces) (flag : String) : Namespaces :=
  { n with flags := n.flags.erase flag }

/-- The active record of a namespace and a name. -/
def lookup (n : Namespaces) (space name : String) : Option Export :=
  (n.find? (space, name)).filter n.isActive

/-- Whether anything is registered under a namespace. -/
def has (n : Namespaces) (space : String) : Bool := n.records.any (·.space = space)

/-- Texts in increasing order. -/
def sortNames (xs : List String) : List String := xs.mergeSort fun a b => a ≤ b

/-- The namespaces in increasing order, each once. -/
def spaces (n : Namespaces) : List String :=
  sortNames (n.records.map (·.space)).eraseDups

/-- The canonical names of the active records in increasing order. -/
def names (n : Namespaces) : List String :=
  sortNames ((n.records.filter n.isActive).map (·.canonical))

/-- The record a bare name refers to: the first active one in the preferred
namespaces, else the first active one registered under the name. -/
def resolveBare (n : Namespaces) (name : String) (preferred : List String) : Option Export :=
  (preferred.findSome? (n.lookup · name)).or
    ((n.records.filter (·.name = name)).find? n.isActive)

/-- The record a call refers to.  A qualified name is looked up directly; without
preferred namespaces a bare name stands for itself. -/
def resolve (n : Namespaces) (name : String) (preferred : Option (List String)) : Option Export :=
  match Text.cutLast? '.' name with
  | some (space, bare) =>
    if space ≠ "" then n.lookup space bare else unqualified
  | none => unqualified
where
  unqualified : Option Export :=
    match preferred with
    | none => some { name }
    | some spaces => n.resolveBare name spaces

end Namespaces

end EffectChain
