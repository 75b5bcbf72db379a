import EffectChain.Data.Table
import EffectChain.Number.Format
import EffectChain.Text.Utf8

/-!
# EffectChain.Document.Basic

Structured documents: the values that catalog files, configuration files and
argument overrides are written in.
-/

namespace EffectChain

/-- A value of a structured document.  The entries of a map keep their order and
have distinct keys. -/
inductive Document where
  | null
  | bool (value : Bool)
  | int (value : Int)
  | float (value : Float)
  | text (value : String)
  | list (items : List Document)
  | map (entries : List (String × Document))
  deriving Repr, Inhabited

namespace Document

/-- The value of a key of a map. -/
def get? (d : Document) (key : String) : Option Document :=
  match d with
  | .map es => es.lookup key
  | _ => none

/-- The number a value stands for; truth values and texts are none. -/
def number? : Document → Option Float
  | .int i => some (Number.ofInt i)
  | .float x => some x
  | _ => none

/-- A list of texts. -/
def ofStrings (xs : List String) : Document := .list (xs.map .text)

/-- The document of a value that may be missing. -/
def ofOption {α : Type} (f : α → Document) : Option α → Document
  | some x => f x
  | none => .null

/-- The map of a table. -/
def ofEntries {α : Type} (f : α → Document) (t : Table α) : Document :=
  .map (t.entries.map fun (k, v) => (k, f v))

/-- Entries in increasing order of their keys. -/
def sortEntries (es : List (String × Document)) : List (String × Document) :=
  es.mergeSort fun a b => a.1 ≤ b.1

mutual

/-- The text of a value inside messages: lists in brackets, maps by key. -/
def shown : Document → String
  | .null => "<nil>"
  | .bool b => if b then "true" else "false"
  | .int i => toString i
  | .float x => Number.general x
  | .text s => s
  | .list xs => "[" ++ " ".intercalate (shownList xs) ++ "]"
  | .map es =>
      "map[" ++ " ".intercalate (((shownEntries es).mergeSort fun a b => a.1 ≤ b.1).map (·.2)) ++
        "]"

def shownList : List Document → List String
  | [] => []
  | d :: ds => d.shown :: shownList ds

def shownEntries : List (String × Document) → List (String × String)
  | [] => []
  | (k, d) :: es => (k, k ++ ":" ++ d.shown) :: shownEntries es

end

/-- The text a key is known by when it is written as something else than text. -/
def keyText : Document → String
  | .null => "null"
  | d => d.shown

mutual

/-- The document with the bytes that are kept in its texts shown as they read together. -/
def legible : Document → Document
  | .text s => .text (Text.legible s)
  | .list xs => .list (legibleItems xs)
  | .map es => .map (legibleEntries es)
  | d => d

def legibleItems : List Document → List Document
  | [] => []
  | d :: ds => d.legible :: legibleItems ds

def legibleEntries : List (String × Document) → List (String × Document)
  | [] => []
  | (k, d) :: es => (Text.legible k, d.legible) :: legibleEntries es

end

end Document

end EffectChain
