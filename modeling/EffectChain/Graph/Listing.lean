import EffectChain.Document.Yaml
import EffectChain.Graph.Allocate

/-!
# EffectChain.Graph.Listing

Plans and graphs as documents, for people and programs to read.
-/

namespace EffectChain

/-- The format a document is written in. -/
inductive ListingFormat where
  | json
  | yaml
  deriving DecidableEq, Repr, Inhabited

/-- The format of a name. -/
def ListingFormat.ofName? : String → Option ListingFormat
  | "json" => some .json
  | "yaml" => some .yaml
  | _ => none

/-- A document as text that ends with a line break. -/
def ListingFormat.write (f : ListingFormat) (indent : Nat) (d : Document) : String :=
  match f with
  | .json => d.json indent ++ "\n"
  | .yaml => d.yaml indent

/-- A list of names; JSON writes none at all as null. -/
def ListingFormat.names (f : ListingFormat) (xs : List String) : Document :=
  if f = .json && xs.isEmpty then .null else Document.ofStrings xs

namespace Document

/-- An entry that is only there if a condition holds. -/
def entryIf (c : Bool) (key : String) (d : Document) : List (String × Document) :=
  if c then [(key, d)] else []

end Document

open Document (ofStrings ofEntries entryIf)

/-- The step as a document. -/
def Step.document (s : Step) : Document :=
  .map ([("temp", .int s.temp), ("op", .text s.op),
    ("args", ofEntries .text (s.args.map fun _ v => v.shown))] ++
    (s.source.map fun n => ("from", Document.int n)).toList ++
    (s.out.map fun o => ("out", Document.text o.name)).toList ++
    entryIf (!s.repetition.isOnce) "repeat" (.int s.repetition.count) ++
    (s.repetition.factor.map fun d => ("repeat_dynamic", Document.text d.text)).toList ++
    entryIf (!s.guards.isEmpty) "guards" (ofStrings (s.guards.map Dynamic.text)))

/-- The plan as a document. -/
def Plan.document (f : ListingFormat) (p : Plan) : Document :=
  .map [("id", .text p.id), ("search", f.names p.search),
    ("steps", .list (p.steps.map Step.document)),
    ("diagnostics", ofStrings (p.diagnostics.map Diagnostic.text)),
      ("render", .text p.renderSurface.name)]

namespace Graph

/-- Textures with the storage they have, if it is known. -/
def stored (alloc : Option Allocation) (t : Table String) : Document :=
  ofEntries .text (t.map fun _ id =>
    match alloc.bind (·.physical? id) with
    | some name => id ++ "@" ++ name
    | none => id)

/-- The pass as a document. -/
def Pass.document (alloc : Option Allocation) (p : Pass) : Document :=
  .map ([("id", .text p.id), ("program", .text p.program), ("kind", .text p.kind.text),
      ("effect", .text p.effect), ("step", .int p.step), ("inputs", stored alloc p.inputs),
      ("outputs", stored alloc p.outputs),
        ("uniforms", ofEntries .text (p.uniforms.map fun _ v => v.shown))] ++
    entryIf (p.kind = .compute) "workgroup" (.list (p.workgroup.map .int)) ++
    entryIf (p.count ≠ "") "repeat" (.text p.count) ++
    entryIf (p.skipIf ≠ "") "skipIf" (.text p.skipIf) ++
    entryIf (p.runIf ≠ "") "runIf" (.text p.runIf) ++
    entryIf (!p.repetition.isOnce) "stepRepeat" (.int p.repetition.count) ++
    entryIf (!p.guards.isEmpty) "guards" (ofStrings (p.guards.map Dynamic.text)))

/-- The slots of an allocation as documents. -/
def Allocation.documents (a : Allocation) : List Document :=
  a.specs.zipIdx.map fun (spec, i) =>
    .map [("name", .text (slotName i)), ("spec", .text spec.key),
      ("textures", ofStrings (a.sharers i))]

/-- The graph as a document; without an allocation it has no slots. -/
def document (f : ListingFormat) (g : Graph) (alloc : Option Allocation) : Document :=
  .map ([("id", .text g.id), ("render", .text g.render),
      ("passes", .list (g.passes.map (Pass.document alloc))),
      ("programs", f.names g.programs.keys),
      ("textures", ofEntries .text (g.textures.map fun _ spec => spec.key)),
      ("errors", ofStrings (g.errors.map Error.text))] ++
    (alloc.map fun a => ("slots", Document.list a.documents)).toList)

end Graph

/-- The text of a plan in a format. -/
def Plan.listing (p : Plan) (f : ListingFormat) (indent : Nat) : String :=
  f.write indent (p.document f)

/-- The text of a graph in a format. -/
def Graph.listing (g : Graph) (alloc : Option Graph.Allocation) (f : ListingFormat) (indent : Nat) :
    String :=
  f.write indent (g.document f alloc).legible

end EffectChain
