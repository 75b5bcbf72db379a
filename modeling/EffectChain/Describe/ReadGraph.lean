import EffectChain.Describe.Fields
import EffectChain.Graph.Basic
import EffectChain.Value.Dynamic

/-!
# EffectChain.Describe.ReadGraph

Frame states, texture specifications and graphs read from descriptions.
-/

namespace EffectChain

def FrameState.ofDescription (d : Document) : FrameState :=
  { time := d.floatAt "time"
    deltaTime := d.floatAt "deltaTime"
    frame := d.intAt "frame"
    mouseX := d.floatAt "mouseX"
    mouseY := d.floatAt "mouseY"
    seed := d.floatAt "seed"
    width := d.intAt "width"
    height := d.intAt "height" }

/-- A surface or a volume with what the description replaces.  A size of zero
leaves the size of a volume and every depth as they are; so does an unknown format
the format. -/
def TextureSpec.ofDescription (d : Document) : TextureSpec :=
  let t := if d.boolAt "volume" then TextureSpec.plainVolume else .surface
  let size := fun k old => if d.intAt k = 0 && (t.volume || k = "depth") then old else d.intAt k
  { t with
    format := (TextureFormat.ofText? (d.textAt "format")).getD t.format
    width := size "width" t.width
    height := size "height" t.height
    depth := size "depth" t.depth }

def Shader.ofDescription (d : Document) : Shader :=
  ⟨d.textAt "wgsl", d.textAt "glsl", d.textAt "entry"⟩

/-- The closure of a formula; a text that is none reads a field of the state. -/
def Dynamic.ofDescription (d : Document) : Dynamic :=
  (Dynamic.closure? d.asText).getD (.ofState d.asText)

namespace Graph

def Pass.ofDescription (d : Document) : Pass :=
  let values := (d.entriesAt "uniforms").filterMap fun (k, v) => (Value.ofDocument? v).map (k, ·)
  let closures := (d.entriesAt "closures").map fun (k, v) =>
    (k, Value.dynamic (Dynamic.ofDescription v))
  let group := fun i => ((d.listAt "workgroup").getD i .null).asInt
  { id := d.textAt "id"
    program := d.textAt "program"
    kind := .ofText (d.textAt "kind")
    inputs := d.textTableAt "inputs"
    outputs := d.textTableAt "outputs"
    uniforms := .ofList (values ++ closures)
    step := d.intAt "step"
    guards := (d.listAt "guards").map Dynamic.ofDescription
    repetition := ⟨d.intAt "repeat", d.optionAt "repeatDynamic" Dynamic.ofDescription⟩
    count := d.textAt "passRepeat"
    skipIf := d.textAt "skipIf"
    runIf := d.textAt "runIf"
    workgroup := [group 0, group 1, group 2] }

def ofDescription (d : Document) : Graph :=
  { id := d.textAt "id"
    render := d.textAt "render"
    programs := .ofList ((d.entriesAt "programs").map fun (k, v) => (k, Shader.ofDescription v))
    textures := .ofList ((d.entriesAt "textures").map fun (k, v) =>
      (k, TextureSpec.ofDescription v))
    passes := (d.listAt "passes").map Pass.ofDescription }

end Graph

end EffectChain
