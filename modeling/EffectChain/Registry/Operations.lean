import EffectChain.Data.Table
import EffectChain.Document.Basic
import EffectChain.Registry.Enums
import EffectChain.Registry.Namespaces
import EffectChain.Text.Basic

/-!
# EffectChain.Registry.Operations

What operations take: the types, ranges and defaults of their arguments, and
which operations begin a chain or hand their input on unchanged.  With the names
and the constants they are everything a program is checked against.
-/

namespace EffectChain

inductive ArgType where
  | float
  | int
  | boolean
  | string
  | color
  | vec3
  | vec4
  | member
  | surface
  deriving DecidableEq, Repr, Inhabited

namespace ArgType

def text : ArgType → String
  | .float => "float"
  | .int => "int"
  | .boolean => "boolean"
  | .string => "string"
  | .color => "color"
  | .vec3 => "vec3"
  | .vec4 => "vec4"
  | .member => "member"
  | .surface => "surface"

def all : List ArgType :=
  [.float, .int, .boolean, .string, .color, .vec3, .vec4, .member, .surface]

/-- The type called `name`, in any case and with blanks around it. -/
def ofText? (name : String) : Option ArgType :=
  match Text.lower (Text.trimSpace name) with
  | "" | "number" => some .float
  | "bool" => some .boolean
  | "enum" => some .member
  | "texture" => some .surface
  | s => all.find? (·.text = s)

/-- Values of the type are plain numbers. -/
def isNumeric : ArgType → Bool
  | .float | .int | .member => true
  | _ => false

end ArgType

/-- One argument of an operation. -/
structure ArgSpec where
  name : String
  type : ArgType := .float
  default : Document := .null
  min : Option Float := none
  max : Option Float := none
  /-- The path of the constants that are its values. -/
  enum : String := ""
  /-- Values by name, which go before the constants. -/
  choices : Table Float := {}
  deriving Repr, Inhabited

/-- A number moved into the range, and whether it had to be moved. -/
def ArgSpec.clamp (a : ArgSpec) (v : Float) : Float × Bool :=
  match a.min with
  | some lo => if v < lo then (lo, true) else below v
  | none => below v
where
  below (v : Float) : Float × Bool :=
    match a.max with
    | some hi => if v > hi then (hi, true) else (v, false)
    | none => (v, false)

/-- The arguments of an operation in order. -/
structure OpSpec where
  name : String
  args : List ArgSpec := []
  deriving Repr, Inhabited

namespace OpSpec

/-- The argument with a name. -/
def arg? (o : OpSpec) (name : String) : Option ArgSpec := o.args.find? (·.name = name)

/-- The position of the argument with a name. -/
def index? (o : OpSpec) (name : String) : Option Nat := o.args.findIdx? (·.name = name)

def argNames (o : OpSpec) : List String := o.args.map (·.name)

/-- The first argument without a name or with the name of an earlier one. -/
def badArg? (seen : List String) : List ArgSpec → Option String
  | [] => none
  | a :: as =>
      if a.name = "" || seen.contains a.name then some a.name else badArg? (a.name :: seen) as

end OpSpec

structure Operations where
  specs : Table OpSpec := {}
  starters : List String := []
  passthrough : List String := []
  deriving Repr, Inhabited

namespace Operations

/-- Adds or replaces the operation with a canonical name. -/
def register (o : Operations) (canonical : String) (args : List ArgSpec) :
    Except RegistryError Operations :=
  if canonical = "" then .error .unnamedOp
  else match OpSpec.badArg? [] args with
    | some a => .error (.invalidOp canonical a)
    | none => .ok { o with specs := o.specs.insert canonical ⟨canonical, args⟩ }

/-- Removes an operation and its marks. -/
def unregister (o : Operations) (canonical : String) : Operations :=
  { specs := o.specs.erase canonical
    starters := o.starters.filter (· ≠ canonical)
    passthrough := o.passthrough.filter (· ≠ canonical) }

/-- Adds a name to a set of names. -/
def mark (names : List String) (n : String) : List String :=
  if names.contains n then names else names ++ [n]

/-- Marks operations that begin a chain. -/
def markStarters (o : Operations) (names : List String) : Operations :=
  { o with starters := names.foldl mark o.starters }

/-- Marks operations that hand their input on unchanged. -/
def markPassthrough (o : Operations) (names : List String) : Operations :=
  { o with passthrough := names.foldl mark o.passthrough }

def lookup? (o : Operations) (canonical : String) : Option OpSpec := o.specs.get? canonical

def isStarter (o : Operations) (canonical : String) : Bool := o.starters.contains canonical

def isPassthrough (o : Operations) (canonical : String) : Bool := o.passthrough.contains canonical

/-- The canonical names in increasing order. -/
def names (o : Operations) : List String := o.specs.keys

end Operations

/-- The names, constants and operations a program is checked against. -/
structure Registry where
  namespaces : Namespaces := {}
  enums : EnumTree := .empty
  ops : Operations := {}
  deriving Repr, Inhabited

end EffectChain
