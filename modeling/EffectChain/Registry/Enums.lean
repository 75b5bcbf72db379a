import EffectChain.Document.Basic
import EffectChain.Registry.Namespaces

/-!
# EffectChain.Registry.Enums

Named constants as a tree: a node may have a value, children, or both.  Merging a
document lays its leaves over the tree, path by path.
-/

namespace EffectChain

/-- A node of the tree of named constants; children stand in increasing order of
their names. -/
inductive EnumTree where
  | node (value : Option Float) (children : List (String × EnumTree))
  deriving Repr, Inhabited

namespace EnumTree

/-- The tree without constants. -/
def empty : EnumTree := .node none []

def value : EnumTree → Option Float
  | .node v _ => v

def children : EnumTree → List (String × EnumTree)
  | .node _ cs => cs

def child? (t : EnumTree) (name : String) : Option EnumTree := t.children.lookup name

/-- The names of the children in increasing order. -/
def names (t : EnumTree) : List String := t.children.map (·.1)

/-- The node at a path. -/
def find? (t : EnumTree) : List String → Option EnumTree
  | [] => some t
  | p :: ps => (t.child? p).bind (·.find? ps)

/-- The value at a path. -/
def lookup? (t : EnumTree) (path : List String) : Option Float := (t.find? path).bind value

/-- The first name of a child with the given value. -/
def reverse? (t : EnumTree) (v : Float) : Option String :=
  (t.children.find? fun (_, c) => c.value.any (· == v)).map (·.1)

/-- Puts a child at its place among the others. -/
def putChild (name : String) (c : EnumTree) : List (String × EnumTree) → List (String × EnumTree)
  | [] => [(name, c)]
  | (n, d) :: rest =>
    if name < n then (name, c) :: (n, d) :: rest
    else if name = n then (name, c) :: rest
    else (n, d) :: putChild name c rest

def setChild (t : EnumTree) (name : String) (c : EnumTree) : EnumTree :=
  .node t.value (putChild name c t.children)

def setValue (t : EnumTree) (v : Float) : EnumTree := .node (some v) t.children

mutual

/-- A document laid over the node at `path`: a number sets its value, a map lays
its entries over its children. -/
def overlay (t : EnumTree) (path : List String) : Document → Except RegistryError EnumTree
  | .map es => overlayEntries t path es
  | .int i => .ok (t.setValue (Number.ofInt i))
  | .float x => .ok (t.setValue x)
  | d => .error (.invalidEnum (".".intercalate path) d.shown)

def overlayEntries (t : EnumTree) (path : List String) :
    List (String × Document) → Except RegistryError EnumTree
  | [] => .ok t
  | (k, d) :: es => do
    let c ← overlay ((t.child? k).getD empty) (path ++ [k]) d
    overlayEntries (t.setChild k c) path es

end

mutual

/-- A document with the entries of all its maps in increasing order. -/
def inOrder : Document → Document
  | .map es => .map (Document.sortEntries (entriesInOrder es))
  | d => d

def entriesInOrder : List (String × Document) → List (String × Document)
  | [] => []
  | (k, d) :: es => (k, inOrder d) :: entriesInOrder es

end

/-- Lays a map of constants over the tree; every leaf has to be a number. -/
def merge (t : EnumTree) (entries : List (String × Document)) : Except RegistryError EnumTree :=
  overlayEntries t [] (Document.sortEntries (entriesInOrder entries))

/-- A document with one value at a path. -/
def chainDocument (v : Float) : List String → Document
  | [] => .float v
  | p :: ps => .map [(p, chainDocument v ps)]

/-- Sets the value at one path. -/
def set (t : EnumTree) (path : List String) (v : Float) : Except RegistryError EnumTree :=
  overlay t [] (chainDocument v path)

/-- The value at a path whose first names may be missing: they are taken from
`space`, all of it first, then less and less; with the full path that matched. -/
def lookupWithin? (t : EnumTree) (path space : List String) : Option (Float × List String) :=
  (List.range (space.length + 1)).reverse.findSome? fun k =>
    (t.lookup? (space.take k ++ path)).map fun v => (v, space.take k ++ path)

end EnumTree

end EffectChain
