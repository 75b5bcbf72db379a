import EffectChain.Live.Prompt

/-!
# EffectChain.Live.Hint

The line below the prompt: where the history stands, what the program is, which
arguments a call takes or how a word may go on.
-/

namespace EffectChain.Prompt

/-- A completion as it is shown; what is called has parentheses. -/
def completionText (p : Prompt) (name : String) : String :=
  if (Signature.lookup? p.registry p.session.search name).isSome then name ++ "()" else name

/-- Texts in one line, two blanks apart, up to a width; dots stand for those that do
not fit. -/
def barFrom (width : Int) (used : Nat) : List String → String
  | [] => ""
  | t :: ts =>
    let after := used + t.length + 2
    if (after : Int) + 3 > width then "  ..." else "  " ++ t ++ barFrom width after ts

/-- The completions in one line; the first is shown even when it does not fit. -/
def bar (p : Prompt) : String :=
  match p.completions.map p.completionText with
  | [] => ""
  | t :: ts => if p.width ≤ 0 then "" else t ++ barFrom p.width t.length ts

/-- The line below the prompt; there is none when the session is over. -/
def hint (p : Prompt) : Option String :=
  if p.ended then none
  else some <|
    if p.position < p.newest then s!"{p.position + 1}/{p.newest}"
    else if Text.trimSpace p.field.text = "" then
      match p.mode with
      | .statement => p.session.summary
      | .command => "Type: " ++ ", ".intercalate commands ++ " (press Esc to return)"
    else match OpenCall.at? p.field.bytes p.field.cursor, p.mode, p.completions with
      | some call, .statement, [] =>
        ((Signature.lookup? p.registry p.session.search call.name).map (·.hint)).getD ""
      | _, _, _ => p.bar

end EffectChain.Prompt
