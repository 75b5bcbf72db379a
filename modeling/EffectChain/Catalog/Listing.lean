import EffectChain.Catalog.Basic
import EffectChain.Fuzzy.Match

/-!
# EffectChain.Catalog.Listing

Effects as lines of text: an effect with its marks and description, below it its
parameters.
-/

namespace EffectChain

/-- The names a pattern matches, the best match first; all of them without a
pattern. -/
def filterNames (pattern : String) (names : List String) : List String :=
  if pattern = "" then names else (Fuzzy.find pattern names).map (·.text)

/-- A parameter with its type, default, range and constants. -/
def Param.text (p : Param) : String :=
  let bound := fun (b : Option Float) => (b.map Number.general).getD ""
  p.name ++ (if p.type = "" then "" else ": " ++ p.type) ++
    (match p.default with
      | .null => ""
      | d => " = " ++ d.shown) ++
    (if p.min.isSome || p.max.isSome then " [" ++ bound p.min ++ ".." ++ bound p.max ++
      "]" else "") ++
    (if p.enum = "" then "" else " enum " ++ p.enum)

namespace Descriptor

/-- The marks of an effect. -/
def tags (d : Descriptor) : List String :=
  (if d.starter then ["starter"] else []) ++ (if d.passthrough then ["passthrough"] else []) ++
    (if d.outputVolume = "" then [] else ["3d"])

/-- The lines that describe an effect. -/
def listing (d : Descriptor) (verbose : Bool) : List String :=
  (d.canonical ++ (if d.tags.isEmpty then "" else " [" ++ ",".intercalate d.tags ++ "]") ++
    (if d.description = "" then "" else "  " ++ d.description)) ::
  (if verbose then d.params.map fun p => "    " ++ p.text else [])

end Descriptor

end EffectChain
