import EffectChain.Document.Json
import EffectChain.Text.Basic

/-!
# EffectChain.Text.Styled

Text laid out for a terminal without colours.
-/

namespace EffectChain.Text

/-- A text with four blanks for each tab. -/
def expandTabs (s : String) : String :=
  String.ofList (s.toList.flatMap fun c => if c = '\t' then List.replicate 4 ' ' else [c])

/-- A text as a block: tabs are blanks, and the lines of a text of several lines
are made as long as the longest. -/
def styled (s : String) : String :=
  match splitChar '\n' (expandTabs s) with
  | [line] => line
  | lines =>
    let width := lines.foldl (fun w line => max w line.length) 0
    "\n".intercalate (lines.map fun line => line ++ blanks (width - line.length))

/-- A text with blanks behind it up to a width. -/
def padRight (width : Nat) (s : String) : String := s ++ blanks (width - s.length)

/-- A text with blanks before it up to a width. -/
def padLeft (width : Nat) (s : String) : String := blanks (width - s.length) ++ s

end EffectChain.Text
