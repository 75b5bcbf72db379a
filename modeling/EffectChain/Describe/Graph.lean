import EffectChain.Catalog.File
import EffectChain.Catalog.Listing
import EffectChain.Describe.Fields
import EffectChain.Graph.Allocate
import EffectChain.Plan.Basic
import EffectChain.Program.Tree
import EffectChain.Registry.Operations

/-!
# EffectChain.Describe.Graph

Descriptions of tokens, syntax trees and plans, of registered names and of effect
declarations, of graphs and of their allocation.  Every node of a tree has its kind and
its place.
-/

namespace EffectChain

open Document (ofStrings ofOption ofBytes ofEntries ofPairs)

def Token.describe (t : Token) : Document :=
  .list [.text t.kind.text, ofBytes t.lexeme, .int t.pos.line, .int t.pos.col, ofBytes t.shown]

def NamespaceRef.describe (r : NamespaceRef) : Document :=
  .map [("name", .text r.name), ("path", ofStrings r.path), ("explicit", .bool r.explicit),
    ("source", .text r.source.text), ("resolved", .bool r.resolved), ("search", ofStrings r.search),
    ("preferred", ofStrings r.preferred)]

/-- A node of a tree. -/
def Document.node (kind : String) (pos : Pos) (fields : List (String × Document)) : Document :=
  .map (("t", .text kind) :: ("pos", pos.describe) :: fields)

open Document (node)

def Surface.node (s : Surface) (pos : Pos) : Document :=
  Document.node "surface" pos [("kind", .text s.kind.text), ("index", .int s.index)]

namespace Expr

/-- A call, with its arguments described. -/
def callNode (name : String) (args kwargs : List Document) (ns : NamespaceRef) (p : Pos) :
    Document :=
  node "call" p [("name", .text name),
    ("qualified", .text (CallOf.qualifiedName (⟨name, [], [], ns, p⟩ : Call))),
    ("args", .list args), ("kwargs", .list kwargs), ("ns", ns.describe)]

mutual

def describe : Expr → Document
  | .number v raw p => node "number" p [("value", .float v), ("raw", .text raw)]
  | .string v p => node "string" p [("value", ofBytes v)]
  | .bool v p => node "bool" p [("value", .bool v)]
  | .color raw c p =>
      node "color" p [("raw", .text raw), ("rgba", .list ((c.components 4).map .float))]
  | .ident x p => node "ident" p [("name", .text x)]
  | .member path p =>
    node "member" p [("path", ofStrings path), ("dotted", .text (".".intercalate path))]
  | .closure x p => node "func" p [("source", .text x)]
  | .surface x p => x.node p
  | .call ⟨name, args, kwargs, ns, p⟩ =>
      callNode name (describeArgs args) (describeKeywords kwargs) ns p
  | .chain ⟨base, calls, out, p⟩ =>
    node "chain" p [("base", .text (base.getD "")), ("calls", .list (describeCalls calls)),
      ("hasOut", .bool out.isSome), ("out", describeOut out)]

def describeArgs : List Expr → List Document
  | [] => []
  | e :: es => e.describe :: describeArgs es

def describeKeywords : List (KeywordOf Expr) → List Document
  | [] => []
  | ⟨name, e, p⟩ :: ks => .list [.text name, e.describe, p.describe] :: describeKeywords ks

def describeCalls : List (CallOf Expr) → List Document
  | [] => []
  | ⟨name, args, kwargs, ns, p⟩ :: cs =>
    callNode name (describeArgs args) (describeKeywords kwargs) ns p :: describeCalls cs

def describeOut : Option Expr → Document
  | none => .null
  | some e => e.describe

end

end Expr

namespace Stmt

mutual

def describe : Stmt → Document
  | .bind x v p => node "let" p [("name", .text x), ("value", v.describe)]
  | .run c p => node "chain" p [("chain", (Expr.chain c).describe)]
  | .choose bs els p =>
    node "if" p [("branches", .list (describeBranches bs)), ("else", .list (describeElse els)),
      ("hasElse", .bool els.isSome)]
  | .repeated c body p =>
      node "loop" p [("count", ofOption Expr.describe c), ("body", .list (describeAll body))]
  | .leaveLoop p => node "break" p []
  | .nextRound p => node "continue" p []
  | .finish p => node "return" p []

def describeAll : List Stmt → List Document
  | [] => []
  | s :: ss => s.describe :: describeAll ss

def describeElse : Option (List Stmt) → List Document
  | none => []
  | some ss => describeAll ss

def describeBranches : List (BranchOf Stmt) → List Document
  | [] => []
  | ⟨cond, body, p⟩ :: bs =>
    .map [("cond", cond.describe), ("body", .list (describeAll body)), ("pos", p.describe)] ::
      describeBranches bs

end

end Stmt

def Program.describe (p : Program) : Document :=
  .map [("search", ofStrings p.search), ("vars", ofStrings p.vars),
    ("statements", .list (p.statements.map Stmt.describe)),
    ("render", ofOption (fun (s, pos) => Surface.node s pos) p.render)]

def Diagnostic.describe (d : Diagnostic) : Document :=
  .map [("code", .text d.problem.code), ("severity", .text d.severity.text),
    ("message", .text d.problem.message), ("pos", d.pos.describe),
    ("identifier", .text d.problem.identifier), ("suggestion", .text d.suggestion),
    ("string", .text d.text), ("log", ofPairs d.attrs)]

def Repeat.describe (r : Repeat) : Document :=
  .map [("count", .int r.count), ("dynamic", ofOption Dynamic.describe r.factor),
    ("once", .bool r.isOnce)]

def Step.describe (s : Step) : Document :=
  .map [("op", .text s.op), ("args", ofEntries Value.describe s.args),
    ("explicit", ofStrings (s.explicit.mergeSort fun a b => a ≤ b)),
    ("from", .int ((s.source.map Int.ofNat).getD (-1))), ("temp", .int s.temp),
    ("ns", s.ns.describe), ("out", ofOption Surface.describe s.out),
    ("guards", .list (s.guards.map Dynamic.describe)), ("repeat", s.repetition.describe),
      ("pos", s.pos.describe)]

/-- The entries of the description of a plan. -/
def Plan.entries (p : Plan) : List (String × Document) :=
  [("id", .text p.id), ("search", ofStrings p.search), ("steps", .list (p.steps.map Step.describe)),
   ("diagnostics", .list (p.diagnostics.map Diagnostic.describe)),
   ("hasErrors", .bool (hasErrors p.diagnostics)), ("render", ofOption Surface.describe p.render),
   ("renderSurface", p.renderSurface.describe),
   ("lastWritten", ofOption Surface.describe p.lastWritten), ("canonical", .text p.canonical)]

end EffectChain

namespace EffectChain

open Document (ofStrings ofOption ofEntries)

def Export.describe (e : Export) : Document :=
  .map [("namespace", .text e.space), ("name", .text e.name), ("flag", .text e.flag),
    ("owner", .text e.owner), ("canonical", .text e.canonical)]

def ArgSpec.describe (a : ArgSpec) : Document :=
  .map [("name", .text a.name), ("type", .text a.type.text), ("numeric", .bool a.type.isNumeric),
    ("default", a.default.typed), ("min", ofOption .float a.min), ("max", ofOption .float a.max),
    ("enum", .text a.enum), ("choices", ofEntries .float a.choices)]

def TextureSpec.describe (t : TextureSpec) : Document :=
  .map [("key", .text t.key), ("format", .text t.format.text), ("3d", .bool t.volume),
    ("follows", .bool t.follows), ("size", .list [.int t.width, .int t.height, .int t.depth])]

def Param.describe (p : Param) : Document :=
  .map [("arg", (p.argSpec?.getD { name := "" }).describe), ("ok", .bool p.argSpec?.isSome),
    ("declared", .text p.type), ("uniform", .text p.uniformName), ("inherit", .bool p.inherits),
    ("requires", .text p.requires), ("surface", .bool p.isSurface), ("text", .text p.text)]

def Pass.describe (p : Pass) : Document :=
  let (x, y, z) := p.workgroupSize
  .map [("name", .text p.name), ("program", .text p.program), ("kind", .text p.kind.text),
    ("inputs", ofEntries .text p.inputs), ("outputs", ofEntries .text p.outputs),
    ("uniforms", ofEntries Document.typed p.uniforms),
    ("workgroup", .list [.int x, .int y, .int z]), ("skipIf", .text p.skipIf),
      ("runIf", .text p.runIf), ("repeat", .text p.countText)]

/-- The entries of the description of an effect. -/
def Descriptor.entries (d : Descriptor) : List (String × Document) :=
  [("canonical", .text d.canonical), ("description", .text d.description), ("flag", .text d.flag),
   ("starter", .bool d.starter), ("passthrough", .bool d.passthrough),
   ("outputTex3d", .text d.outputVolume), ("outputGeo", .text d.outputGeometry),
   ("params", .list (d.params.map Param.describe)),
   ("programs", ofEntries (fun s => ofStrings [s.source, s.entry]) d.programs),
   ("passes", .list (d.passes.map Pass.describe)),
   ("textures", ofEntries TextureSpec.describe d.textures),
     ("textures3d", ofEntries TextureSpec.describe d.volumes),
       ("layout", ofEntries Document.typed d.layout)]

def CatalogFile.describe (f : CatalogFile) : Document :=
  .map [("namespace", .text f.space), ("flag", .text f.flag),
    ("enums", (Document.map f.enums).typed), ("effects", .list (f.effects.map (.map ·.entries)))]

end EffectChain

namespace EffectChain.Graph

open Document (ofStrings ofOption ofEntries ofPairs)

def Allocation.describe (a : Allocation) : Document :=
  .legible <| .map [("slots", ofEntries (.text <| slotName ·) a.slots),
    ("specs", ofStrings (a.specs.map TextureSpec.key)), ("len", .int a.size),
    ("intervals", ofEntries (fun x => .list [.int x.first, .int x.last]) a.intervals),
    ("shared", .map ((List.range a.size).map fun k => (toString k, ofStrings (a.sharers k)))),
    ("missing", .bool (a.slots.values.any (· ≥ a.size)))]

def Pass.describe (p : Pass) : Document :=
  .map [("id", .text p.id), ("program", .text p.program), ("kind", .text p.kind.text),
    ("inputs", (ofEntries .text p.inputs).legible),
    ("outputs", (ofEntries .text p.outputs).legible),
    ("uniforms", ofEntries Value.describe p.uniforms), ("effect", .text p.effect),
    ("node", .text p.node), ("step", .int p.step),
    ("guards", .list (p.guards.map Dynamic.describe)), ("repeat", p.repetition.describe),
    ("passRepeat", .text p.count), ("skipIf", .text p.skipIf), ("runIf", .text p.runIf),
    ("workgroup", .list (p.workgroup.map .int)), ("blit", .bool p.isCopy),
      ("textures", (ofStrings p.textures).legible)]

def Error.describe (e : Error) : Document :=
  .map [("code", .text e.problem.code), ("step", .int e.step), ("op", .text e.op),
    ("message", .text e.problem.message), ("string", .text e.text), ("log", ofPairs e.attrs)]

/-- A shader by its size in bytes and its entry point. -/
def describeShader (s : Shader) : Document := .list [.int s.source.utf8ByteSize, .text s.entry]

def describe (g : Graph) : Document :=
  .map [("id", .text g.id), ("passes", .list (g.passes.map Pass.describe)),
    ("programs", ofEntries describeShader g.programs),
    ("textures", (ofEntries TextureSpec.describe g.textures).legible),
    ("errors", .list (g.errors.map Error.describe)), ("surfaces", (ofStrings g.surfaces).legible),
    ("render", .text g.render), ("err", ofOption .text g.errorText?),
      ("alloc", g.allocate.describe)]

end EffectChain.Graph
