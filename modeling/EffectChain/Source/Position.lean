import EffectChain.Text.Utf8

/-!
# EffectChain.Source.Position

Lines and columns of a source text, both counted from one.  A column is one
glyph wide, whatever number of bytes the glyph has; a newline starts a line.
-/

namespace EffectChain

/-- A place in a source text; line zero means that the place is unknown. -/
structure Pos where
  line : Nat := 0
  col : Nat := 0
  deriving DecidableEq, Repr, Inhabited

namespace Pos

/-- The first place of a text. -/
def start : Pos := ⟨1, 1⟩

/-- The place after one character. -/
def after (p : Pos) (c : Char) : Pos :=
  if c = '\n' then ⟨p.line + 1, 1⟩ else ⟨p.line, p.col + 1⟩

/-- The place after a stretch of text. -/
def past (p : Pos) (bs : Bytes) : Pos := (Utf8.decode bs).foldl Pos.after p

def isKnown (p : Pos) : Bool := 0 < p.line

/-- Line and column with a colon between them. -/
def text (p : Pos) : String := s!"{p.line}:{p.col}"

end Pos

end EffectChain
