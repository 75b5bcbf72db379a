import EffectChain.Catalog.Texture
import EffectChain.Registry.Operations

/-!
# EffectChain.Catalog.Descriptor

The declaration of an effect: its parameters, its shader programs, the passes
that run them and the textures they need.
-/

namespace EffectChain

/-! ## names that every effect shares -/

/-- The inputs an effect may name: the image, volume and geometry before it and
its own result of the frame before. -/
def conventionInputs : List String := ["inputTex", "inputTex3d", "inputGeo", "feedback"]

/-- The outputs an effect may name: its image, its volume and its geometry. -/
def conventionOutputs : List String := ["outputTex", "outputTex3d", "outputGeo"]

def isConventionInput (name : String) : Bool := conventionInputs.contains name

def isConventionOutput (name : String) : Bool := conventionOutputs.contains name

/-! ## parts of a declaration -/

inductive PassKind where
  | render
  | compute
  | other (name : String)
  deriving DecidableEq, Repr, Inhabited

namespace PassKind

def text : PassKind → String
  | .render => "render"
  | .compute => "compute"
  | .other n => n

/-- The kind called `name`; a pass without one renders. -/
def ofText : String → PassKind
  | "" | "render" => .render
  | "compute" => .compute
  | n => .other n

end PassKind

/-- A parameter.  One that inherits gives way to the value its uniform has from
earlier in the chain when it is not written in the call. -/
structure Param where
  name : String := ""
  type : String := ""
  default : Document := .null
  min : Option Float := none
  max : Option Float := none
  enum : String := ""
  choices : Table Float := {}
  uniform : String := ""
  inherits : Bool := false
  requires : String := ""
  description : String := ""
  deriving Repr, Inhabited

namespace Param

/-- The uniform the parameter feeds. -/
def uniformName (p : Param) : String := if p.uniform = "" then p.name else p.uniform

def argType? (p : Param) : Option ArgType := ArgType.ofText? p.type

/-- The parameter binds a texture. -/
def isSurface (p : Param) : Bool := p.argType? = some .surface

/-- The argument calls are checked against. -/
def argSpec? (p : Param) : Option ArgSpec :=
  p.argType?.map fun type =>
    { name := p.name, type, default := p.default, min := p.min, max := p.max, enum := p.enum,
      choices := p.choices }

end Param

/-- A shader program in one or both of two languages. -/
structure Shader where
  wgsl : String := ""
  glsl : String := ""
  entry : String := ""
  deriving DecidableEq, Repr, Inhabited

/-- The first text that is not empty. -/
def Shader.source (s : Shader) : String := if s.wgsl = "" then s.glsl else s.wgsl

/-- One run of a program.  Inputs and outputs map the names the program uses to
the names of textures. -/
structure Pass where
  name : String := ""
  program : String := ""
  kind : PassKind := .render
  inputs : Table String := {}
  outputs : Table String := {}
  uniforms : Table Document := {}
  workgroup : List Int := []
  skipIf : String := ""
  runIf : String := ""
  count : Document := .null
  deriving Repr, Inhabited

namespace Pass

/-- The size of a workgroup, one in each dimension that is not given. -/
def workgroupSize (p : Pass) : Int × Int × Int :=
  (p.workgroup.getD 0 1, p.workgroup.getD 1 1, p.workgroup.getD 2 1)

/-- How often the pass runs, as an expression; empty when it runs once. -/
def countText (p : Pass) : String :=
  match p.count with
  | .null => ""
  | .text s => Text.trimSpace s
  | .float x => Number.plain x
  | d => d.shown

end Pass

/-- The declaration of one effect. -/
structure Descriptor where
  name : String := ""
  space : String := ""
  description : String := ""
  flag : String := ""
  starter : Bool := false
  passthrough : Bool := false
  params : List Param := []
  programs : Table Shader := {}
  passes : List Pass := []
  textures : Table TextureSpec := {}
  volumes : Table TextureSpec := {}
  outputVolume : String := ""
  outputGeometry : String := ""
  layout : Table Document := {}
  deriving Repr, Inhabited

/-! ## what can be wrong with one -/

/-- What is wrong with a declaration. -/
inductive DescriptorFault where
  | invalidName
  | noPasses
  | unknownType (param type : String)
  | unknownChannel (requires : String)
  | undeclaredProgram (pass : Nat) (program : String)
  | unknownPassType (pass : Nat) (type : String)
  | noOutputs (pass : Nat)
  | invalidWorkgroup (pass : Nat)
  deriving DecidableEq, Repr, Inhabited

/-- The fault as named texts. -/
def DescriptorFault.attrs : DescriptorFault → List (String × String)
  | .invalidName => [("reason", "invalid name")]
  | .noPasses => [("reason", "no passes")]
  | .unknownType param type => [("param", param), ("type", type)]
  | .unknownChannel r => [("reason", "unknown required channel"), ("requires", r)]
  | .undeclaredProgram i p =>
      [("reason", "undeclared program"), ("pass", toString i), ("program", p)]
  | .unknownPassType i t => [("reason", "unknown pass type"), ("pass", toString i), ("type", t)]
  | .noOutputs i => [("reason", "pass has no outputs"), ("pass", toString i)]
  | .invalidWorkgroup i => [("reason", "invalid workgroup size"), ("pass", toString i)]

namespace Descriptor

/-- The name with its namespace before it. -/
def canonical (d : Descriptor) : String :=
  if d.space = "" then d.name else d.space ++ "." ++ d.name

def param? (d : Descriptor) (name : String) : Option Param := d.params.find? (·.name = name)

/-- A declared texture; images go before volumes. -/
def texture? (d : Descriptor) (name : String) : Option TextureSpec :=
  (d.textures.get? name).or (d.volumes.get? name)

/-- The arguments of the operation, in the order of the parameters. -/
def args (d : Descriptor) : Except DescriptorFault (List ArgSpec) :=
  d.params.mapM fun p =>
    match p.argSpec? with
    | some a => .ok a
    | none => .error (.unknownType p.name p.type)

/-- The first thing that is wrong with a pass. -/
def passFault? (d : Descriptor) (i : Nat) (p : Pass) : Option DescriptorFault :=
  if !d.programs.contains p.program then some (.undeclaredProgram i p.program)
  else match p.kind with
    | .other t => some (.unknownPassType i t)
    | _ =>
      if p.outputs.isEmpty then some (.noOutputs i)
      else if p.workgroup.any (· < 1) then some (.invalidWorkgroup i)
      else none

/-- The first thing that is wrong with a declaration. -/
def fault? (d : Descriptor) : Option DescriptorFault :=
  if d.name = "" || d.name.contains '.' then some .invalidName
  else if d.passes.isEmpty then some .noPasses
  else match d.args with
    | .error f => some f
    | .ok _ =>
      match d.params.find? fun p => p.requires ≠ "" && !isConventionInput p.requires with
      | some p => some (.unknownChannel p.requires)
      | none => d.passes.zipIdx.findSome? fun (p, i) => d.passFault? i p

end Descriptor

end EffectChain
