import EffectChain.Document.Basic
import EffectChain.Number.Read
import EffectChain.Number.Whole
import EffectChain.Value.Basic

/-!
# EffectChain.Describe.Fields

Descriptions: documents with one entry for every field of a value, for tools that
look into programs, plans and graphs.  This module describes argument values, and
reads the fields of a description by their names; a field that is missing or of
another kind reads as the empty value of its kind.
-/

namespace EffectChain

namespace Document

/-- A text; bytes that are no characters are replaced. -/
def ofBytes (bs : Bytes) : Document := .text (Bytes.toString bs)

/-- Named texts as pairs, in their order. -/
def ofPairs (xs : List (String × String)) : Document :=
  .list (xs.map fun (k, v) => ofStrings [k, v])

mutual

/-- The document with the kind of each number beside it. -/
def typed : Document → Document
  | .int i => .map [(if i < 0 then "int" else "uint", .text (toString i))]
  | .float x => .map [("float", .float x)]
  | .list xs => .list (typedItems xs)
  | .map es => .map [("map", .map (typedEntries es))]
  | d => d

def typedItems : List Document → List Document
  | [] => []
  | d :: ds => d.typed :: typedItems ds

def typedEntries : List (String × Document) → List (String × Document)
  | [] => []
  | (k, d) :: es => (k, d.typed) :: typedEntries es

end

end Document

open Document (ofStrings ofOption ofBytes ofEntries ofPairs)

def Pos.describe (p : Pos) : Document := .list [.int p.line, .int p.col]

def Surface.describe (s : Surface) : Document := .text s.name

def Dynamic.describe (d : Dynamic) : Document :=
  .map ([("source", .text d.source), ("min", ofOption .float d.min), ("max", ofOption .float d.max),
      ("negate", .bool d.negated), ("string", .text d.text), ("expr", .text d.formula)] ++
    match d.signal with
    | .closure .. => [("dyn", .text "closure")]
    | .state _ => [("dyn", .text "state")]
    | .oscillator w =>
      [("dyn", .text "oscillator"), ("osc", .list ([w.min, w.max, w.speed, w.offset].map .float))])

def Value.describe : Value → Document
  | .scalar x => .map [("scalar", .float x)]
  | .boolean b => .bool b
  | .text t => ofBytes t
  | .vector xs literal => .map [("vec", .list (xs.map .float)), ("literal", .text literal)]
  | .ref s => .map [("ref", s.describe)]
  | .dynamic d => d.describe

end EffectChain

namespace EffectChain.Document

/-- Whether a field is there and not null. -/
def has (d : Document) (k : String) : Bool :=
  match d.get? k with
  | none | some .null => false
  | some _ => true

def field (d : Document) (k : String) : Document := (d.get? k).getD .null

/-- The text of a value. -/
def asText : Document → String
  | .text s => s
  | _ => ""

def asBool : Document → Bool
  | .bool b => b
  | _ => false

def asInt : Document → Int
  | .int i => i
  | .float x => Number.integerPart x
  | _ => 0

/-- The number of a value; a text is read as one. -/
def asFloat : Document → Float
  | .text s => (Number.read? s).getD 0
  | d => d.number?.getD 0

def asList : Document → List Document
  | .list xs => xs
  | _ => []

def asEntries : Document → List (String × Document)
  | .map es => es
  | _ => []

def textAt (d : Document) (k : String) : String := (d.field k).asText
def boolAt (d : Document) (k : String) : Bool := (d.field k).asBool
def intAt (d : Document) (k : String) : Int := (d.field k).asInt
def natAt (d : Document) (k : String) : Nat := (d.intAt k).toNat
def floatAt (d : Document) (k : String) : Float := (d.field k).asFloat
def listAt (d : Document) (k : String) : List Document := (d.field k).asList
def textsAt (d : Document) (k : String) : List String := (d.listAt k).map asText
def entriesAt (d : Document) (k : String) : List (String × Document) := (d.field k).asEntries

/-- The texts of a map by their names. -/
def textTableAt (d : Document) (k : String) : Table String :=
  .ofList ((d.entriesAt k).map fun (n, v) => (n, v.asText))

/-- A field that may be missing. -/
def optionAt {α : Type} (d : Document) (k : String) (f : Document → α) : Option α :=
  if d.has k then some (f (d.field k)) else none

mutual

/-- How many values a document is built of. -/
def weight : Document → Nat
  | .list xs => 1 + weightItems xs
  | .map es => 1 + weightEntries es
  | _ => 1

def weightItems : List Document → Nat
  | [] => 0
  | d :: ds => d.weight + weightItems ds

def weightEntries : List (String × Document) → Nat
  | [] => 0
  | (_, d) :: es => d.weight + weightEntries es

end

end EffectChain.Document
