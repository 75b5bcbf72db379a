import EffectChain.Text.Basic

/-!
# EffectChain.Catalog.Texture

What a texture needs: a format, a dimension and a size.  A width or height of
zero follows the viewport.  Textures with equal keys may share storage.
-/

namespace EffectChain

inductive TextureFormat where
  | rgba8unorm
  | bgra8unorm
  | r8unorm
  | r32float
  | rgba16float
  | rgba32float
  deriving DecidableEq, Repr, Inhabited

namespace TextureFormat

def text : TextureFormat → String
  | .rgba8unorm => "rgba8unorm"
  | .bgra8unorm => "bgra8unorm"
  | .r8unorm => "r8unorm"
  | .r32float => "r32float"
  | .rgba16float => "rgba16float"
  | .rgba32float => "rgba32float"

def all : List TextureFormat :=
  [.rgba8unorm, .bgra8unorm, .r8unorm, .r32float, .rgba16float, .rgba32float]

/-- The format called `name`, in any case and with blanks around it. -/
def ofText? (name : String) : Option TextureFormat :=
  all.find? (·.text = Text.lower (Text.trimSpace name))

end TextureFormat

/-- A texture to allocate. -/
structure TextureSpec where
  format : TextureFormat := .rgba8unorm
  volume : Bool := false
  width : Int := 0
  height : Int := 0
  depth : Int := 0
  deriving DecidableEq, Repr, Inhabited

namespace TextureSpec

/-- The texture of outputs, feedbacks and results of steps. -/
def surface : TextureSpec := {}

/-- A volume that declares nothing. -/
def plainVolume : TextureSpec :=
  { format := .rgba16float, volume := true, width := 64, height := 64, depth := 64 }

/-- The size follows the viewport. -/
def follows (s : TextureSpec) : Bool := s.width = 0 || s.height = 0

/-- The texture in a viewport of the given size. -/
def sized (s : TextureSpec) (w h : Int) : TextureSpec :=
  { s with
    width := if s.width = 0 then w else s.width
    height := if s.height = 0 then h else s.height
    depth := if s.depth = 0 then 1 else s.depth }

/-- The allocation class: its format, its dimension and, when it is fixed, its size. -/
def key (s : TextureSpec) : String :=
  s.format.text ++ (if s.volume then "-3d" else "") ++
    (if s.follows then ""
     else "-" ++ toString s.width ++ "x" ++ toString s.height ++
      (if s.volume then "x" ++ toString s.depth else ""))

/-- The depth as catalogs write it: only volumes have one. -/
def declaredDepth (s : TextureSpec) : Int := if s.volume then s.depth else 0

/-- The format and the size as compact text. -/
def encoded (s : TextureSpec) : String :=
  "\x7b\"Format\":\"" ++ s.format.text ++ "\",\"Width\":" ++ toString s.width ++ ",\"Height\":" ++
    toString s.height ++ ",\"Depth\":" ++ toString s.declaredDepth ++ "\x7d"

end TextureSpec

end EffectChain
