import EffectChain.Catalog.File
import EffectChain.Registry.Operations

/-!
# EffectChain.Catalog.Basic

The installed effects, and what installing and removing a file does to them and
to the registry.  Both change together, so they are one `Library`.
-/

namespace EffectChain

/-- Installed effects by canonical name, and which origin installed which. -/
structure Catalog where
  effects : Table Descriptor := {}
  owners : Table (List String) := {}
  /-- How many installs and removals there have been. -/
  generation : Nat := 0
  deriving Repr, Inhabited

namespace Catalog

def lookup? (c : Catalog) (canonical : String) : Option Descriptor := c.effects.get? canonical

def names (c : Catalog) : List String := c.effects.keys

def origins (c : Catalog) : List String := c.owners.keys

/-- The origin that installed an effect. -/
def ownerOf? (c : Catalog) (canonical : String) : Option String :=
  (c.owners.entries.find? (·.2.contains canonical)).map (·.1)

end Catalog

/-- The registry and the catalog that programs are compiled against. -/
structure Library where
  registry : Registry := {}
  catalog : Catalog := {}
  deriving Repr, Inhabited

namespace Library

/-- Removes what an origin installed; constants stay.  The number of effects
removed comes with it. -/
def uninstall (l : Library) (owner : String) : Library × Nat :=
  match l.catalog.owners.get? owner with
  | none => (l, 0)
  | some names =>
    ({ registry := { l.registry with
        namespaces := l.registry.namespaces.unregister owner
        ops := names.foldl Operations.unregister l.registry.ops }
       catalog := {
        effects := names.foldl Table.erase l.catalog.effects
        owners := l.catalog.owners.erase owner
        generation := l.catalog.generation + 1 } }, names.length)

/-- The origin a file is installed under. -/
def ownerName (f : CatalogFile) : String := if f.origin = "" then f.space else f.origin

/-- An effect of a file that another origin has installed. -/
def conflict? (l : Library) (owner : String) (f : CatalogFile) : Option CatalogError :=
  f.effects.findSome? fun d =>
    match l.catalog.ownerOf? d.canonical with
    | some prev => if prev ≠ owner then some (.duplicateEffect d.canonical prev) else none
    | none => none

/-- The operation of an effect with its marks. -/
def addOperation (ops : Operations) (d : Descriptor) : Except CatalogError Operations :=
  match d.args with
  | .error f => .error (.invalidDescriptor d.canonical f)
  | .ok args =>
    match ops.register d.canonical args with
    | .error e => .error (.registry e)
    | .ok ops =>
      let ops := if d.starter then ops.markStarters [d.canonical] else ops
      .ok (if d.passthrough then ops.markPassthrough [d.canonical] else ops)

/-- The operations of effects, added in order; on an error, those already added
are removed again. -/
def addOperations (ops : Operations) (done : List String) :
    List Descriptor → Operations × Option CatalogError
  | [] => (ops, none)
  | d :: ds =>
    match addOperation ops d with
    | .ok ops => addOperations ops (done ++ [d.canonical]) ds
    | .error e => (done.foldl Operations.unregister ops, some e)

/-- Installs a file over what its origin installed before.  An effect that
another origin holds refuses the file with nothing changed; a file refused later
has lost what its origin had installed before. -/
def install (l : Library) (f : CatalogFile) : Library × Option CatalogError :=
  let owner := ownerName f
  match l.conflict? owner f with
  | some e => (l, some e)
  | none =>
    let l := (l.uninstall owner).1
    let exports := f.effects.map fun d =>
      { space := d.space, name := d.name, flag := d.flag, owner : Export }
    match l.registry.namespaces.register owner exports with
    | .error e => (l, some (.registry e))
    | .ok namespaces =>
      let names := f.effects.map Descriptor.canonical
      match addOperations l.registry.ops [] f.effects with
      | (ops, some e) =>
        ({ l with registry := { l.registry with namespaces := namespaces.unregister owner, ops } },
          some e)
      | (ops, none) =>
        match l.registry.enums.merge f.enums with
        | .error e =>
          ({ l with registry := { l.registry with
              namespaces := namespaces.unregister owner
              ops := names.foldl Operations.unregister ops } }, some (.registry e))
        | .ok enums =>
          ({ registry := { namespaces, ops, enums }
             catalog := {
              effects := f.effects.foldl (fun t d => t.insert d.canonical d) l.catalog.effects
              owners := l.catalog.owners.insert owner names
              generation := l.catalog.generation + 1 } }, none)

/-- Reads and installs a catalog text. -/
def installText (l : Library) (text origin : String) : Library × Except CatalogError CatalogFile :=
  match CatalogFile.decode text origin with
  | .error e => (l, .error e)
  | .ok f =>
    match l.install f with
    | (l, none) => (l, .ok f)
    | (l, some e) => (l, .error e)


end Library

end EffectChain
