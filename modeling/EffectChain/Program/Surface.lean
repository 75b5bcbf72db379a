import EffectChain.Token.Lexer

/-!
# EffectChain.Program.Surface

Surfaces: the images a program reads and writes.  Outputs, feedbacks and sources
are named in the language by a letter and a digit; the result of a step has a
name of the same shape that no source can write.
-/

namespace EffectChain

inductive SurfaceKind where
  | output
  | feedback
  | source
  | temp
  deriving DecidableEq, Repr, Inhabited

namespace SurfaceKind

/-- The letter a surface of this kind is named with. -/
def letter : SurfaceKind → String
  | .output => "o"
  | .feedback => "f"
  | .source => "s"
  | .temp => "t"

/-- The word for the kind. -/
def text : SurfaceKind → String
  | .output => "output"
  | .feedback => "feedback"
  | .source => "source"
  | .temp => "temp"

def all : List SurfaceKind := [.output, .feedback, .source, .temp]

def ofText? (s : String) : Option SurfaceKind := all.find? (·.text = s)

/-- The kind of a surface the language can name. -/
def ofLetter? : Char → Option SurfaceKind
  | 'o' => some .output
  | 'f' => some .feedback
  | 's' => some .source
  | _ => none

end SurfaceKind

/-- One surface: an output, a feedback, a source, or the result of a step. -/
structure Surface where
  kind : SurfaceKind := .output
  index : Nat := 0
  deriving DecidableEq, Repr, Inhabited

namespace Surface

/-- The name of a surface, a letter and its index. -/
def name (s : Surface) : String := s.kind.letter ++ toString s.index

/-- The surface with this name, if the language has it. -/
def ofName? (name : String) : Option Surface :=
  match Lexer.surfaceWord? name.toList with
  | some (k, index, true) => (SurfaceKind.ofLetter? k).map (⟨·, index⟩)
  | _ => none

end Surface

end EffectChain
