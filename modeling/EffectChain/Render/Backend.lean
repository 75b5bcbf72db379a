import EffectChain.Catalog.Descriptor
import EffectChain.Value.Dynamic

/-!
# EffectChain.Render.Backend

What a renderer asks of the system that draws: calls, and the reasons for which a
call is refused.  A backend is any type of states with a `submit` function; a call
that is refused may still change the state.  With them, what can go wrong when a graph
is loaded or a frame is rendered.
-/

namespace EffectChain

/-- One run of a program with every binding resolved to stored textures. -/
structure Dispatch where
  pass : String := ""
  program : String := ""
  kind : PassKind := .render
  inputs : Table String := {}
  outputs : Table String := {}
  uniforms : Table Datum := {}
  /-- The number of workgroups in each dimension, zero when rendering. -/
  groups : Int × Int × Int := (0, 0, 0)
  /-- The number of the run among the runs of the pass in its step. -/
  iteration : Int := 0
  deriving Repr, Inhabited

/-- One request to a backend. -/
inductive Request where
  | init
  | createTexture (id : String) (spec : TextureSpec)
  | destroyTexture (id : String)
  | compileProgram (id : String) (shader : Shader)
  | executePass (dispatch : Dispatch) (state : FrameState)
  | beginFrame (state : FrameState)
  | endFrame
  | resize (width height : Int)
  | copyTexture (source target : String)
  | present (id : String)
  | close
  deriving Repr, Inhabited

namespace Request

/-- The word for the kind of call. -/
def method : Request → String
  | .init => "Init"
  | .createTexture .. => "CreateTexture"
  | .destroyTexture _ => "DestroyTexture"
  | .compileProgram .. => "CompileProgram"
  | .executePass .. => "ExecutePass"
  | .beginFrame _ => "BeginFrame"
  | .endFrame => "EndFrame"
  | .resize .. => "Resize"
  | .copyTexture .. => "CopyTexture"
  | .present _ => "Present"
  | .close => "Close"

/-- The texture, program or pass the call is about; empty when it is about none. -/
def subject : Request → String
  | .createTexture id _ => id
  | .destroyTexture id => id
  | .compileProgram id _ => id
  | .executePass d _ => d.pass
  | .copyTexture _ target => target
  | .present id => id
  | _ => ""

/-- Bindings in the order of their names. -/
def bindings (t : Table String) : String :=
  "map[" ++ " ".intercalate (t.entries.map fun (k, v) => k ++ ":" ++ v) ++ "]"

/-- The call on one line. -/
def text (c : Request) : String :=
  match c with
  | .copyTexture source target => c.method ++ " " ++ source ++ " -> " ++ target
  | .executePass d _ =>
      c.method ++ " " ++ d.pass ++ " " ++ bindings d.inputs ++ " -> " ++ bindings d.outputs
  | .resize w h => c.method ++ " " ++ toString w ++ "x" ++ toString h
  | .beginFrame s => c.method ++ " " ++ toString s.frame
  | _ => if c.subject = "" then c.method else c.method ++ " " ++ c.subject

end Request

/-- Why a backend refuses a call. -/
inductive Refusal where
  | closed (method : String)
  | injected (method id reason : String)
  | unknownTexture (pass : Option String) (id : String)
  | unknownProgram (program : String)
  | textureExists (id : String)
  | badShader (program reason : String)
  deriving DecidableEq, Repr, Inhabited

namespace Refusal

def message : Refusal → String
  | .closed _ => "backend closed"
  | .injected _ _ reason => "injected failure: " ++ reason
  | .unknownTexture .. => "unknown texture"
  | .unknownProgram _ => "unknown program"
  | .textureExists _ => "texture exists"
  | .badShader program reason => "R001: CompileProgram " ++ program ++ ": " ++ reason

/-- The details as named texts. -/
def attrs : Refusal → List (String × String)
  | .closed method => [("method", method)]
  | .injected method id _ => [("method", method), ("id", id)]
  | .unknownTexture (some pass) id => [("pass", pass), ("id", id)]
  | .unknownTexture none id => [("id", id)]
  | .unknownProgram program => [("program", program)]
  | .textureExists id => [("id", id)]
  | .badShader .. => []

end Refusal

/-- States of a backend. -/
class Backend (β : Type) where
  submit : β → Request → β × Option Refusal

/-- Goes through a list with a state until something goes wrong.  The state keeps
what was done before. -/
def runList {α σ ε : Type} (f : σ → α → σ × Option ε) : σ → List α → σ × Option ε
  | s, [] => (s, none)
  | s, a :: as =>
    match f s a with
    | (s, none) => runList f s as
    | (s, some e) => (s, some e)

/-- What went wrong with one program, texture or pass. -/
inductive RenderFault where
  | refused (refusal : Refusal)
  | programMissing (program : String)
  | noStorage (texture : String)
  | noOutput
  | emptyDispatch (workgroup size : List Int)
  deriving DecidableEq, Repr, Inhabited

def RenderFault.message : RenderFault → String
  | .refused r => r.message
  | .programMissing p => "program " ++ Text.quote p ++ " not compiled"
  | .noStorage t => "texture " ++ Text.quote t ++ " has no storage"
  | .noOutput => "compute pass has no output"
  | .emptyDispatch wg size =>
    let shown := fun (xs : List Int) => "[" ++ " ".intercalate (xs.map toString) ++ "]"
    "cannot dispatch " ++ shown wg ++ " over " ++ shown size

inductive RenderError where
  | noGraph
  | notLoaded
  | disposed
  /-- The backend could not be started. -/
  | start (refusal : Refusal)
  /-- A condition of a pass cannot be read. -/
  | badCondition (pass field source : String)
  /-- A condition of a pass has no value. -/
  | failedCondition (source : String)
  | backend (code method id : String) (fault : RenderFault)
  | refused (refusal : Refusal)
  /-- The frame failed, and so did ending it. -/
  | both (first : RenderError) (second : Refusal)
  deriving DecidableEq, Repr, Inhabited

namespace RenderError

/-- The text of an error.  A condition without a value says nothing more, also not
about how the frame ended. -/
def message : RenderError → String
  | .noGraph => "nil graph"
  | .notLoaded => "no graph loaded"
  | .disposed => "executor disposed"
  | .start r => "backend initialization failed: " ++ r.message
  | .badCondition .. => "invalid pass condition"
  | .failedCondition _ => "invalid pass condition"
  | .backend code method id fault => code ++ ": " ++ method ++ " " ++ id ++ ": " ++ fault.message
  | .refused r => r.message
  | .both e@(.failedCondition _) _ => e.message
  | .both e r => e.message ++ "\n" ++ r.message

/-- The details as named texts, those of the first error that has any. -/
def attrs : RenderError → List (String × String)
  | .badCondition pass field source => [("pass", pass), ("field", field), ("source", source)]
  | .failedCondition source => [("source", source)]
  | .backend _ _ _ (.refused r) => r.attrs
  | .refused r => r.attrs
  | .both e r => if e.attrs.isEmpty then r.attrs else e.attrs
  | _ => []

/-- A refusal with what was asked for, unless it says so itself. -/
def ofRefusal (code method id : String) : Refusal → RenderError
  | r@(.badShader ..) => .refused r
  | r => .backend code method id (.refused r)

end RenderError

end EffectChain
