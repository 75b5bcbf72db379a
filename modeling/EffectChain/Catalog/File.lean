import EffectChain.Catalog.Descriptor
import EffectChain.Document.Read
import EffectChain.Number.Whole

/-!
# EffectChain.Catalog.File

Catalog files: a namespace, constants and declarations of effects, read from a
document, and why a file is refused.  A field that is not known refuses the file;
a missing or null field has the empty value of its type; numbers and truth values
may stand for texts.
-/

namespace EffectChain

/-- Why a catalog file is refused. -/
inductive CatalogError where
  /-- The file cannot be opened or is no catalog; without an origin, the
  directory cannot be listed. -/
  | unreadable (origin : Option String)
  | missingNamespace (origin : String)
  | emptyEntry (origin : String)
  | invalidDescriptor (effect : String) (fault : DescriptorFault)
  | duplicateEffect (effect owner : String)
  | registry (error : RegistryError)
  deriving DecidableEq, Repr, Inhabited

namespace CatalogError

def message : CatalogError → String
  | .unreadable _ | .missingNamespace _ | .emptyEntry _ => "invalid catalog file"
  | .invalidDescriptor .. => "invalid effect descriptor"
  | .duplicateEffect .. => "duplicate effect"
  | .registry e => e.message

/-- What the refusal is about, as named texts. -/
def attrs : CatalogError → List (String × String)
  | .unreadable none => []
  | .unreadable (some origin) => [("origin", origin)]
  | .missingNamespace origin => [("origin", origin), ("reason", "missing namespace")]
  | .emptyEntry origin => [("origin", origin), ("reason", "empty effect entry")]
  | .invalidDescriptor effect fault => ("effect", effect) :: fault.attrs
  | .duplicateEffect effect owner => [("effect", effect), ("owner", owner)]
  | .registry e => e.attrs

end CatalogError

/-- One catalog file. -/
structure CatalogFile where
  space : String := ""
  flag : String := ""
  enums : List (String × Document) := []
  effects : List Descriptor := []
  /-- Where the file came from; it owns everything that is installed from it. -/
  origin : String := ""
  deriving Repr, Inhabited

namespace CatalogFile

/-! ## fields -/

/-- The fields of a record with the given names. -/
def record? (known : List String) : Document → Option Document
  | .null => some (.map [])
  | .map es => if es.all fun (k, _) => known.contains k then some (.map es) else none
  | _ => none

/-- The value of a field, read by `f`; a missing field is null. -/
def field? {α : Type} (d : Document) (name : String) (f : Document → Option α) : Option α :=
  f ((d.get? name).getD .null)

def text? : Document → Option String
  | .null => some ""
  | .list _ | .map _ => none
  | d => some d.shown

def bool? : Document → Option Bool
  | .null => some false
  | .bool b => some b
  | _ => none

/-- The integer part of a number that is finite and not too large. -/
def wholePart? (x : Float) : Option Int :=
  if Number.isFinite x && x.abs < 9223372036854775808.0 then some (Number.integerPart x) else none

def int? : Document → Option Int
  | .null => some 0
  | .int i => if i < 0x8000000000000000 then some i else none
  | .float x => wholePart? x
  | .text s => (Number.read? s).bind fun x => if x ≥ 0 then wholePart? x else none
  | _ => none

def float? : Document → Option Float
  | .null => some 0
  | .int i => some (Number.ofInt i)
  | .float x => some x
  | .text s => Number.read? s
  | _ => none

/-- A number that may be missing. -/
def optional? {α : Type} (f : Document → Option α) : Document → Option (Option α)
  | .null => some none
  | d => (f d).map some

def list? {α : Type} (f : Document → Option α) : Document → Option (List α)
  | .null => some []
  | .list xs => xs.mapM f
  | _ => none

def table? {α : Type} (f : Document → Option α) : Document → Option (Table α)
  | .null => some {}
  | .map es => (es.mapM fun e => (f e.2).map fun x => (e.1, x)).map .ofList
  | _ => none

def entries? : Document → Option (List (String × Document))
  | .null => some []
  | .map es => some es
  | _ => none

/-! ## records -/

def param? (d : Document) : Option Param := do
  let d ← record? ["name", "type", "default", "min", "max", "enum", "choices", "uniform", "inherit",
    "requires", "description"] d
  return {
    name := ← field? d "name" text?
    type := ← field? d "type" text?
    default := ← field? d "default" some
    min := ← field? d "min" (optional? float?)
    max := ← field? d "max" (optional? float?)
    enum := ← field? d "enum" text?
    choices := ← field? d "choices" (table? float?)
    uniform := ← field? d "uniform" text?
    inherits := ← field? d "inherit" bool?
    requires := ← field? d "requires" text?
    description := ← field? d "description" text? }

def shader? (d : Document) : Option Shader := do
  let d ← record? ["wgsl", "glsl", "entry"] d
  return {
    wgsl := ← field? d "wgsl" text?
    glsl := ← field? d "glsl" text?
    entry := ← field? d "entry" text? }

def pass? (d : Document) : Option Pass := do
  let d ← record? ["name", "program", "type", "inputs", "outputs", "uniforms", "workgroupSize",
    "skipIf", "runIf", "repeat"] d
  return {
    name := ← field? d "name" text?
    program := ← field? d "program" text?
    kind := .ofText (← field? d "type" text?)
    inputs := ← field? d "inputs" (table? text?)
    outputs := ← field? d "outputs" (table? text?)
    uniforms := ← field? d "uniforms" (table? some)
    workgroup := ← field? d "workgroupSize" (list? int?)
    skipIf := ← field? d "skipIf" text?
    runIf := ← field? d "runIf" text?
    count := ← field? d "repeat" some }

/-- A texture that starts from `base`; sizes that are zero keep those of `base`. -/
def texture? (base : TextureSpec) (d : Document) : Option TextureSpec := do
  let d ← record? ["format", "width", "height", "depth"] d
  let name ← field? d "format" text?
  let format ← if name = "" then some base.format else TextureFormat.ofText? name
  let w ← field? d "width" int?
  let h ← field? d "height" int?
  let z ← field? d "depth" int?
  if w < 0 || h < 0 || z < 0 then none
  else return { base with
    format
    width := if w > 0 then w else base.width
    height := if h > 0 then h else base.height
    depth := if z > 0 then z else base.depth }

def descriptor? (d : Document) : Option Descriptor := do
  let d ← record? ["name", "description", "flag", "starter", "passthrough", "globals", "programs",
    "passes", "textures", "textures3d", "outputTex3d", "outputGeo", "uniformLayout"] d
  return {
    name := ← field? d "name" text?
    description := ← field? d "description" text?
    flag := ← field? d "flag" text?
    starter := ← field? d "starter" bool?
    passthrough := ← field? d "passthrough" bool?
    params := ← field? d "globals" (list? param?)
    programs := ← field? d "programs" (table? shader?)
    passes := ← field? d "passes" (list? pass?)
    textures := ← field? d "textures" (table? (texture? .surface))
    volumes := ← field? d "textures3d" (table? (texture? .plainVolume))
    outputVolume := ← field? d "outputTex3d" text?
    outputGeometry := ← field? d "outputGeo" text?
    layout := ← field? d "uniformLayout" (table? some) }

/-- The parts of a file: namespace, flag, constants and effects, a null entry
among them as `none`. -/
def parts? (d : Document) :
    Option (String × String × List (String × Document) × List (Option Descriptor)) := do
  let d ← record? ["namespace", "flag", "enums", "effects"] d
  return (← field? d "namespace" text?, ← field? d "flag" text?, ← field? d "enums" entries?,
    ← field? d "effects" (list? (optional? descriptor?)))

/-! ## files -/

/-- An effect of a file, in the file's namespace and behind its flag unless it
has its own. -/
def adopt (space flag : String) (d : Descriptor) : Descriptor :=
  { d with space, flag := if d.flag = "" then flag else d.flag }

/-- The effects of a file in order; the first one that is missing or wrong
refuses the file. -/
def effectsOf (space flag origin : String) :
    List (Option Descriptor) → Except CatalogError (List Descriptor)
  | [] => .ok []
  | none :: _ => .error (.emptyEntry origin)
  | some d :: rest =>
    let d := adopt space flag d
    match d.fault? with
    | some f => .error (.invalidDescriptor d.canonical f)
    | none => do return d :: (← effectsOf space flag origin rest)

/-- The file a document stands for. -/
def ofDocument (d : Document) (origin : String) : Except CatalogError CatalogFile :=
  match parts? d with
  | none => .error (.unreadable (some origin))
  | some (space, flag, enums, effects) =>
    if space = "" then .error (.missingNamespace origin)
    else do
      let effects ← effectsOf space flag origin effects
      return { space, flag, enums, effects, origin }

/-- Reads a catalog file. -/
def decode (text origin : String) : Except CatalogError CatalogFile :=
  match Document.read? text with
  | none => .error (.unreadable (some origin))
  | some d => ofDocument d origin

end CatalogFile

end EffectChain
