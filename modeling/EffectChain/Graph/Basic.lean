import EffectChain.Catalog.Descriptor
import EffectChain.Plan.Basic
import EffectChain.Program.Surface
import EffectChain.Text.Basic

/-!
# EffectChain.Graph.Basic

Graphs: the passes of a plan in the order they run, each bound to textures, with
the programs and textures they need.  What the name of a texture starts with says
how long the texture lives: outputs, feedbacks, sources and shared textures keep
their content from frame to frame, all others belong to one step of one frame.
-/

namespace EffectChain.Graph

/-- The name of the step with the given number. -/
def nodeId (temp : Nat) : String := "node_" ++ toString temp

/-- The texture of a surface. -/
def surfaceId (s : Surface) : String :=
  match s.kind with
  | .output => "global_" ++ s.name
  | .feedback => "feedback_" ++ s.name
  | .source => "source_" ++ s.name
  | .temp => nodeId s.index ++ "_out"

/-- A surface whose readers see what was written in the frame before. -/
def isFeedback (id : String) : Bool := id.startsWith "feedback_"

/-- A surface that is filled from outside. -/
def isSource (id : String) : Bool := id.startsWith "source_"

/-- The texture keeps its content from frame to frame. -/
def isPersistent (id : String) : Bool :=
  id.startsWith "global_" || isFeedback id || isSource id

/-- The characters of a name with a small letter first.  Only the first byte is made small.  Of
a letter outside ASCII it is no character: U+FFFD takes its place, and the bytes behind it
are kept one by one. -/
def lowered (c : Char) (rest : List Char) : List Char :=
  if c.toNat < 128 then Text.lowerChar c :: rest
  else '\uFFFD' :: (Utf8.encode (c :: rest)).tail.map Utf8.byteChar

/-- The texture an effect declares under a name.  A name that starts with `global`
is shared by all instances of all effects that declare it. -/
def textureId (node name : String) : String :=
  match name.toList with
  | 'g' :: 'l' :: 'o' :: 'b' :: 'a' :: 'l' :: c :: rest =>
    "global_" ++ String.ofList (lowered c rest)
  | _ => node ++ "_" ++ name

/-- The storage of the slot with the given number. -/
def slotName (i : Nat) : String := "slot_" ++ toString i

end EffectChain.Graph

namespace EffectChain

/-- One run of a program over textures of the graph. -/
structure Graph.Pass where
  id : String := ""
  program : String := ""
  kind : PassKind := .render
  /-- The texture each name of the program is sampled from. -/
  inputs : Table String := {}
  /-- The texture each attachment of the program is written to. -/
  outputs : Table String := {}
  uniforms : Table Value := {}
  effect : String := ""
  node : String := ""
  /-- The step the pass belongs to. -/
  step : Int := 0
  guards : List Dynamic := []
  repetition : Repeat := {}
  /-- How often the pass runs in each round of its step, as an expression. -/
  count : String := ""
  skipIf : String := ""
  runIf : String := ""
  workgroup : List Int := [1, 1, 1]
  /-- The pass only copies a result to a surface. -/
  isCopy : Bool := false
  deriving Repr, Inhabited

/-- What cannot be expanded in a step. -/
inductive Graph.Problem where
  | unknownEffect (op : String)
  | undeclaredTexture (pass : Nat) (name : String)
  | unresolvedInput (pass : Nat) (name : String)
  | noResult (surface : Surface)
  deriving DecidableEq, Repr, Inhabited

/-- A problem with its step. -/
structure Graph.Error where
  problem : Graph.Problem
  step : Nat
  op : String
  deriving DecidableEq, Repr, Inhabited

/-- The expanded form of a plan. -/
structure Graph where
  id : String := ""
  passes : List Graph.Pass := []
  errors : List Graph.Error := []
  programs : Table Shader := {}
  textures : Table TextureSpec := {}
  /-- The texture that is shown after every frame. -/
  render : String := ""
  deriving Repr, Inhabited

namespace Graph

/-- The names of a list, each once and in increasing order. -/
def sortedNames (names : List String) : List String :=
  (Table.ofList (names.map (·, ()))).keys

/-- The textures a pass touches, in increasing order. -/
def Pass.textures (p : Pass) : List String := sortedNames (p.inputs.values ++ p.outputs.values)

/-- The persistent textures, in increasing order. -/
def surfaces (g : Graph) : List String := g.textures.keys.filter isPersistent

/-! ## the texts of problems -/

namespace Problem

def code : Problem → String
  | .unknownEffect _ => "E001"
  | .undeclaredTexture .. => "E002"
  | .unresolvedInput .. => "E003"
  | .noResult _ => "E003"

def message : Problem → String
  | .unknownEffect op => "effect " ++ Text.quote op ++ " not found"
  | .undeclaredTexture i t =>
      "pass " ++ toString i ++ ": texture " ++ Text.quote t ++ " is not declared"
  | .unresolvedInput i t => "pass " ++ toString i ++ ": cannot resolve input " ++ Text.quote t
  | .noResult s => "no 2D result to write to " ++ s.name

end Problem

namespace Error

def text (e : Error) : String :=
  e.problem.code ++ ": step " ++ toString e.step ++ " (" ++ e.op ++ "): " ++ e.problem.message

/-- The error as named texts. -/
def attrs (e : Error) : List (String × String) :=
  [("code", e.problem.code), ("step", toString e.step), ("op", e.op),
    ("message", e.problem.message)]

end Error

/-- All errors, one a line; `none` when there are none. -/
def errorText? (g : Graph) : Option String :=
  if g.errors.isEmpty then none else some ("\n".intercalate (g.errors.map Error.text))

end Graph

end EffectChain
