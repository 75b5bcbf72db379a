import EffectChain.Describe.Fields
import EffectChain.Engine.Basic

/-!
# EffectChain.Describe.Engine

Descriptions of running engines and of the calls made to their backends.
-/

namespace EffectChain

open Document (ofStrings ofOption ofEntries)

/-- A computed number, by twelve digits: the last bits of a computation differ from
machine to machine. -/
def Document.approximate (x : Float) : Document :=
  .text (Number.scientific 11 (if x.abs < 1e-12 then 0 else x))

mutual

def Datum.describe : Datum → Document
  | .null => .null
  | .bool b => .bool b
  | .text s => .text s
  | .int i => .map [("f", .approximate (Number.ofInt i))]
  | .float x => .map [("f", .approximate x)]
  | .list xs => .list (Datum.describeItems xs)
  | .surface s => .map [("surface", .text s.name)]
  | .function _ => .map [("other", .bool true)]

def Datum.describeItems : List Datum → List Document
  | [] => []
  | d :: ds => d.describe :: Datum.describeItems ds

end

def Compiled.describe (c : Compiled) : Document :=
  .map [("id", .text c.plan.id), ("source", .text c.source),
    ("diagnostics", ofStrings (c.plan.diagnostics.map Diagnostic.text)),
    ("errors", ofStrings (c.graph.errors.map Graph.Error.text)),
    ("steps", .int c.plan.steps.length), ("passes", .int c.graph.passes.length),
      ("slots", .int c.alloc.size)]

def Dispatch.describe (d : Dispatch) : Document :=
  .map [("pass", .text d.pass), ("program", .text d.program), ("kind", .text d.kind.text),
    ("inputs", (ofEntries .text d.inputs).legible),
    ("outputs", (ofEntries .text d.outputs).legible),
    ("uniforms", ofEntries Datum.describe d.uniforms),
      ("groups", .list [.int d.groups.1, .int d.groups.2.1, .int d.groups.2.2]),
        ("iteration", .int d.iteration)]

/-- A call by its text; in detail, passes and frames with everything they are given. -/
def Request.describe (detail : Bool) (c : Request) : Document :=
  let call := Document.text (Text.legible c.text)
  match c, detail with
  | .createTexture _ spec, _ => .text (Text.legible c.text ++ " " ++ spec.key)
  | .beginFrame s, true =>
    .map [("call", call), ("frame", .int s.frame), ("size", .list [.int s.width, .int s.height])]
  | .executePass d s, true =>
      .map [("call", call), ("frame", .int s.frame), ("dispatch", d.describe)]
  | _, _ => call

def BufferPair.describe (b : BufferPair) : Document :=
  .list [.text (Text.legible b.read), .text (Text.legible b.write), .bool b.dirty]

def FrameState.describe (s : FrameState) : Document :=
  .list [.approximate s.time, .approximate s.deltaTime, .int s.frame, .approximate s.mouseX,
    .approximate s.mouseY, .int s.width, .int s.height]

end EffectChain
