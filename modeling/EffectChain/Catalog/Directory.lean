import EffectChain.Catalog.Basic
import EffectChain.Storage.Files
import EffectChain.Text.Basic

/-!
# EffectChain.Catalog.Directory

Catalog files taken from a tree of files, one by one or a directory at a time.
-/

namespace EffectChain

namespace Library

/-- Installs a catalog file; its path is its origin. -/
def installFile (l : Library) (files : Files) (path : String) : Library × Option CatalogError :=
  match files.read? path with
  | none => (l, some (.unreadable (some path)))
  | some text =>
    match l.installText text path with
    | (l, .ok _) => (l, none)
    | (l, .error e) => (l, some e)

/-- Installs files in order; the first refusal ends it. -/
def installFiles (l : Library) (files : Files) : List String → Library × Option CatalogError
  | [] => (l, none)
  | p :: ps =>
    match l.installFile files p with
    | (l, none) => l.installFiles files ps
    | (l, some e) => (l, some e)

/-- Installs the catalog files of a directory in the order of their names. -/
def installDir (l : Library) (files : Files) (dir : String) : Library × Option CatalogError :=
  match files.glob? (Path.join [dir, "*.yaml"]) with
  | none => (l, some (.unreadable none))
  | some paths => l.installFiles files paths

end Library

namespace Files

/-- The endings of the names of catalog files. -/
def catalogExtensions : List String := [".yaml", ".yml", ".json"]

/-- The catalog files of a directory in the order of their names, without hidden
ones.  A directory that is not there has none. -/
def catalogs (f : Files) (dir : String) : Except FileError (List String) :=
  if dir = "" then .ok []
  else match f.locate dir with
    | .error .missing => .ok []
    | .error fault => .error ⟨"open", dir, fault⟩
    | .ok k =>
      if !f.isDirKey k then .error ⟨"open", dir, .notDirectory⟩
      else
        let isCatalog := fun name => !name.startsWith "." &&
          catalogExtensions.contains (Text.lower (Path.extension name)) &&
          !f.isDirKey (Path.join [k, name])
        .ok (((f.names k).filter isCatalog).map fun name => Path.join [dir, name])

end Files

end EffectChain
