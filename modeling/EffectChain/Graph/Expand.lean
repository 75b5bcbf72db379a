import EffectChain.Catalog.Basic
import EffectChain.Graph.Basic

/-!
# EffectChain.Graph.Expand

From a plan to its graph.  The steps are expanded in order; what a step passes on
to the steps that take its result is its `Flow`: the uniforms collected along the
chain and the image, the volume and the geometry it has come to.  A step that
cannot be expanded hands its own input on.
-/

namespace EffectChain.Graph

/-- What comes down a chain. -/
structure Flow where
  uniforms : Table Value := {}
  image : Option String := none
  volume : Option String := none
  geometry : Option String := none
  deriving Repr, Inhabited

namespace Flow

/-- The texture that a conventional input name stands for. -/
def channel (f : Flow) : String → Option String
  | "inputTex" => f.image
  | "inputTex3d" => f.volume
  | "inputGeo" => f.geometry
  | _ => none

/-- The uniforms after one parameter.  A parameter that inherits and was not
written in the call leaves the value from earlier in the chain, if there is one
and the channel it requires is there. -/
def addParam (step : Step) (f : Flow) (p : Param) : Flow :=
  if p.isSurface then f
  else if !step.explicit.contains p.name && p.inherits && f.uniforms.contains p.uniformName &&
      (p.requires = "" || (f.channel p.requires).isSome) then f
  else match step.args.get? p.name with
    | some v => { f with uniforms := f.uniforms.insert p.uniformName v }
    | none => f

/-- The uniforms after all parameters of an effect. -/
def addParams (f : Flow) (d : Descriptor) (step : Step) : Flow := d.params.foldl (addParam step) f

end Flow

/-- A shader that replaces a program of one step. -/
structure ShaderOverride where
  step : Nat
  program : String
  shader : Shader
  deriving Repr, Inhabited

/-- The program that copies a result to its surface. -/
def copyShader : Shader :=
  { entry := "fs_main"
    wgsl := "@group(0) @binding(0) var src: texture_2d<f32>;\n" ++
      "@group(0) @binding(1) var smp: sampler;\n\n" ++
      "@fragment\n" ++
      "fn fs_main(@builtin(position) pos: vec4<f32>) -> @location(0) vec4<f32> \x7b\n" ++
      "    let size = vec2<f32>(textureDimensions(src));\n" ++
      "    return textureSample(src, smp, pos.xy / size);\n" ++
      "\x7d\n" }

/-- The texture of points that geometry is written to. -/
def geometrySpec : TextureSpec := { format := .rgba32float }

/-! ## where chains end -/

/-- The number of the last step of the chain that goes through a step.  Of two
steps with the same input the later one continues the chain. -/
def chainEnd (steps : List Step) : (fuel : Nat) → Nat → Nat
  | 0, t => t
  | fuel + 1, t =>
    match steps.reverse.find? (·.source = some t) with
    | some s => chainEnd steps fuel s.temp
    | none => t

/-- The surface that the chain through a step is written to. -/
def target? (steps : List Step) (t : Nat) : Option Surface :=
  (steps.find? (·.temp = chainEnd steps steps.length t)).bind (·.out)

/-! ## expanding -/

/-- A graph under construction and what came out of each step so far. -/
structure Draft where
  graph : Graph
  flows : List (Nat × Flow) := []
  deriving Repr, Inhabited

namespace Draft

def addTexture (d : Draft) (id : String) (spec : TextureSpec) : Draft :=
  { d with graph := { d.graph with textures := d.graph.textures.insert id spec } }

def addError (d : Draft) (step : Step) (p : Problem) : Draft :=
  { d with graph := { d.graph with errors := d.graph.errors ++ [⟨p, step.temp, step.op⟩] } }

def addPass (d : Draft) (p : Graph.Pass) : Draft :=
  { d with graph := { d.graph with passes := d.graph.passes ++ [p] } }

def addProgram (d : Draft) (id : String) (s : Shader) : Draft :=
  { d with graph := { d.graph with programs := d.graph.programs.insert id s } }

def setFlow (d : Draft) (t : Nat) (f : Flow) : Draft := { d with flows := (t, f) :: d.flows }

/-- What came out of a step. -/
def flow? (d : Draft) (t : Nat) : Option Flow := d.flows.lookup t

end Draft

/-- A plan being expanded against a catalog. -/
structure Expander where
  plan : Plan
  lookup : String → Option Descriptor
  overrides : List ShaderOverride := []

namespace Expander

/-- The identifier of a program of a step, and the program.  One that is replaced
in this step has an identifier of its own. -/
def program (x : Expander) (step : Step) (name : String) (s : Shader) : String × Shader :=
  let id := step.op ++ "/" ++ name
  match x.overrides.reverse.find? fun o => o.step = step.temp && o.program = name with
  | some o => (id ++ "@" ++ toString step.temp, o.shader)
  | none => (id, s)

/-- The texture an input of a pass is sampled from, and whether it is a surface
that the graph needs because of this input. -/
def source? (x : Expander) (draft : Draft) (step : Step) (d : Descriptor) (flow : Flow)
    (name : String) : Option (String × Bool) :=
  if name = "feedback" then (target? x.plan.steps step.temp).map fun s => (surfaceId s, true)
  else if isConventionInput name then (flow.channel name).map (·, false)
  else if ((d.param? name).map Param.isSurface).getD false then
    match step.args.get? name with
    | some (.ref s) =>
      if s.kind = .temp then ((draft.flow? s.index).bind (·.image)).map (·, false)
      else some (surfaceId s, true)
    | _ => none
  else if (d.texture? name).isSome then some (textureId (nodeId step.temp) name, false)
  else none

/-- Binds the inputs of the pass with the given place, in the order of their names. -/
def bindInputs (x : Expander) (step : Step) (d : Descriptor) (flow : Flow) (place : Nat)
    (inputs : Table String) (draft : Draft) : Draft × Table String :=
  inputs.entries.foldl (fun (draft, bound) (binding, name) =>
    match x.source? draft step d flow name with
    | some (id, fresh) =>
        (if fresh then draft.addTexture id .surface else draft, bound.insert binding id)
    | none => (draft.addError step (.unresolvedInput place name), bound)) (draft, {})

/-- What the passes of a step have written so far. -/
structure Written where
  draft : Draft
  flow : Flow
  image : Option String
  /-- The target of the step was written by a pass. -/
  direct : Bool := false
  bound : Table String := {}

/-- Binds one output of a pass. -/
def bindOutput (step : Step) (d : Descriptor) (place : Nat) (last : Bool) (w : Written)
    (attachment name : String) : Written :=
  let node := nodeId step.temp
  let put := fun (w : Written) id => { w with bound := w.bound.insert attachment id }
  match name with
  | "outputTex" =>
    match step.out, last with
    | some s, true =>
      put { w with draft := w.draft.addTexture (surfaceId s) .surface, image := some (surfaceId s),
                   direct := true }
        (surfaceId s)
    | _, _ =>
      let id := node ++ "_out"
      put { w with draft := w.draft.addTexture id .surface, image := some id } id
  | "outputTex3d" =>
    let id := node ++ "_out3d"
    put { w with draft := w.draft.addTexture id .plainVolume,
                 flow := { w.flow with volume := some id } } id
  | "outputGeo" =>
    let id := node ++ "_geo"
    put { w with draft := w.draft.addTexture id geometrySpec,
                 flow := { w.flow with geometry := some id } } id
  | name =>
    if (d.texture? name).isNone
      then { w with draft := w.draft.addError step (.undeclaredTexture place name) }
    else
      let id := textureId node name
      let flow :=
        if name = d.outputVolume then { w.flow with volume := some id }
        else if name = d.outputGeometry then { w.flow with geometry := some id }
        else w.flow
      put { w with flow } id

/-- Expands one pass of a step. -/
def pass (x : Expander) (step : Step) (d : Descriptor) (input : Flow) (uniforms : Table Value)
    (w : Written) (place : Nat) (p : EffectChain.Pass) : Written :=
  let (draft, inputs) := x.bindInputs step d input place p.inputs w.draft
  let last := place + 1 = d.passes.length
  let w := p.outputs.entries.foldl (fun w (attachment, name) =>
    bindOutput step d place last w attachment name)
    { w with draft, bound := {} }
  let (gx, gy, gz) := p.workgroupSize
  let constants := p.uniforms.entries.foldl (fun us (k, v) =>
    if us.contains k then us
    else match Value.ofDocument? v with
      | some v => us.insert k v
      | none => us) uniforms
  let made : Graph.Pass :=
    { id := nodeId step.temp ++ "_pass_" ++ toString place
      program := match d.programs.get? p.program with
        | some s => (x.program step p.program s).1
        | none => ""
      kind := p.kind
      inputs
      outputs := w.bound
      uniforms := constants
      effect := step.op
      node := nodeId step.temp
      step := step.temp
      guards := step.guards
      repetition := step.repetition
      count := p.countText
      skipIf := p.skipIf
      runIf := p.runIf
      workgroup := [gx, gy, gz] }
  { w with draft := w.draft.addPass made }

/-- Brings the result of a step to its target when no pass has written there. -/
def finish (step : Step) (out : Flow) (image : Option String) (direct : Bool) (draft : Draft) :
    Draft :=
  match step.out with
  | none => draft
  | some surface =>
    if direct then draft
    else
      let target := surfaceId surface
      let draft := draft.addTexture target .surface
      match image with
      | none => draft.addError step (.noResult surface)
      | some image =>
        if image = target then draft
        else
          let draft := draft.addProgram "blit" copyShader
          let draft := draft.addPass
            { id := nodeId step.temp ++ "_blit"
              program := "blit"
              inputs := Table.empty.insert "src" image
              outputs := Table.empty.insert "color" target
              uniforms := out.uniforms
              effect := step.op
              node := nodeId step.temp
              step := step.temp
              guards := step.guards
              repetition := { count := 0 }
              isCopy := true }
          draft.setFlow step.temp { out with image := some target }

/-- Enters programs and textures of a step into the graph, in the order they come. -/
def enter (x : Expander) (s : Step) (programs : List (String × Shader))
    (textures : List (String × TextureSpec)) (draft : Draft) : Draft :=
  let draft := programs.foldl (fun draft (name, shader) =>
    let (id, shader) := x.program s name shader
    draft.addProgram id shader) draft
  textures.foldl (fun draft (name, spec) => draft.addTexture (textureId (nodeId s.temp) name) spec)
    draft

/-- Expands a step of an effect, whose programs and textures come in the given order.  A table
has no order of its own; the order matters only when two names get the same identifier. -/
def stepIn (x : Expander) (draft : Draft) (s : Step) (d : Descriptor)
    (programs : List (String × Shader)) (textures : List (String × TextureSpec)) : Draft :=
  let input := (s.source.bind draft.flow?).getD {}
  let out := input.addParams d s
  let w := d.passes.zipIdx.foldl (fun w (p, i) => x.pass s d input out.uniforms w i p)
    { draft := x.enter s programs textures draft, flow := out, image := input.image }
  let out := { w.flow with image := w.image }
  finish s out w.image w.direct (w.draft.setFlow s.temp out)

/-- Expands one step, with the programs and the textures of its effect in the order of their
names. -/
def step (x : Expander) (draft : Draft) (s : Step) : Draft :=
  match x.lookup s.op with
  | none =>
    let input := (s.source.bind draft.flow?).getD {}
    let draft := (draft.addError s (.unknownEffect s.op)).setFlow s.temp input
    finish s input input.image false draft
  | some d => x.stepIn draft s d d.programs.entries (d.textures.entries ++ d.volumes.entries)

end Expander

end Graph

/-- The graph of a plan.  `lookup` gives the declaration of an effect by its
canonical name. -/
def Plan.expand (p : Plan) (lookup : String → Option Descriptor)
    (overrides : List Graph.ShaderOverride := []) : Graph :=
  let render := Graph.surfaceId p.renderSurface
  let start : Graph.Draft :=
    { graph := { id := p.id, render, textures := Table.empty.insert render .surface } }
  (p.steps.foldl (Graph.Expander.step { plan := p, lookup, overrides }) start).graph

end EffectChain
