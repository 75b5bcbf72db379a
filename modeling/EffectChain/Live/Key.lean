import EffectChain.Live.Reply

/-!
# EffectChain.Live.Key

What the keys do at the prompt.
-/

namespace EffectChain

inductive Key where
  | char (c : Char)
  | enter
  | tab
  | backTab
  | escape
  | interrupt
  | endOfInput
  | up
  | down
  /-- The arrows that stay in the mode at hand. -/
  | upInMode
  | downInMode
  /-- The arrows that walk through commands. -/
  | upCommands
  | downCommands
  | backspace
  | delete
  | left
  | right
  | home
  | toEnd
  deriving DecidableEq, Repr, Inhabited

namespace Key

/-- The key with a name, with or without the alternate key held. -/
def ofName? (name : String) (alt : Bool) : Option Key :=
  match name with
  | "enter" => some .enter
  | "tab" => some .tab
  | "shift+tab" => some .backTab
  | "esc" => some .escape
  | "ctrl+c" => some .interrupt
  | "ctrl+d" => some .endOfInput
  | "up" => some (if alt then .upCommands else .up)
  | "down" => some (if alt then .downCommands else .down)
  | "shift+up" => some .upInMode
  | "shift+down" => some .downInMode
  | "backspace" => some .backspace
  | "delete" => some .delete
  | "left" => some .left
  | "right" => some .right
  | "home" => some .home
  | "end" => some .toEnd
  | _ => none

end Key

namespace Prompt

/-- The field after a key that edits it or moves the cursor. -/
def edit (p : Prompt) (f : TextField → TextField) : Prompt :=
  { p with field := f p.field, cycle := none, walk := none, position := p.newest }.refresh

/-- Types a character.  A blank ends a cycle and keeps the completion. -/
def type (p : Prompt) (c : Char) : Prompt :=
  let p := if c = ' ' then { p with cycle := none } else p
  { p with field := p.field.insert c, position := p.newest }.refreshTyped

/-- Ends the session, or empties the field when something is typed. -/
def interrupt (p : Prompt) : Prompt × List Reply :=
  if p.field.isEmpty then ({ p with ended := true }, [.quit]) else (p.edit fun _ => {}, [])

/-- Submits the line, or keeps the completion of the cycle at hand. -/
def enter (p : Prompt) : Prompt × List Reply :=
  let p := { p with walk := none }
  if p.cycle.isSome && !p.completions.isEmpty then ({ p with cycle := none }.refreshTyped, [])
  else p.submit

/-- Undoes the cycle at hand, or switches to the other mode. -/
def escape (p : Prompt) : Prompt :=
  match p.cycle with
  | some c => { p with field := c.before, cycle := none }.refresh
  | none => { p with walk := none }.switchTo p.mode.other

/-- The prompt after a key, and what it prints. -/
def press (p : Prompt) : Key → Prompt × List Reply
  | .char c => (p.type c, [])
  | .enter => p.enter
  | .tab => (p.step true, [])
  | .backTab => (p.step false, [])
  | .escape => (p.escape, [])
  | .interrupt => p.interrupt
  | .endOfInput => if p.field.isEmpty then ({ p with ended := true }, [.quit]) else (p, [])
  | .up => (p.browse false true fun _ => true, [])
  | .down => (p.browse true true fun _ => true, [])
  | .upInMode => (p.browse false false (·.mode = p.mode), [])
  | .downInMode => (p.browse true false (·.mode = p.mode), [])
  | .upCommands => (p.browseCommands false, [])
  | .downCommands => (p.browseCommands true, [])
  | .backspace => (p.edit .backspace, [])
  | .delete => (p.edit .delete, [])
  | .left => (p.edit .left, [])
  | .right => (p.edit .right, [])
  | .home => (p.edit .home, [])
  | .toEnd => (p.edit .toEnd, [])

end Prompt

end EffectChain
