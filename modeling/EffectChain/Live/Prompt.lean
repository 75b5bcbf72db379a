import EffectChain.Live.Completion
import EffectChain.Live.History
import EffectChain.Live.Session
import EffectChain.Text.Utf8

/-!
# EffectChain.Live.Prompt

The line at which a session is typed: its completions, the walk through the history
and the switch between statements and commands.

The line is a text with a cursor in it; it holds neither control characters nor the
replacement character, and it is no longer than a limit.  The keys that edit it are those a
session passes on; it has no selection, no masking and no suggestions of its own.  Completion
looks at the text in bytes and takes the cursor, which counts characters, for an offset; the
two differ after characters that are not ASCII.
-/

namespace EffectChain

/-! ## the line -/

/-- A line, and how many characters of it stand before the cursor. -/
structure TextField where
  chars : List Char := []
  cursor : Nat := 0
  deriving DecidableEq, Repr, Inhabited

namespace TextField

/-- The number of characters a field holds at most. -/
def limit : Nat := 1024

def isControl (c : Char) : Bool := c.toNat < 0x20 || (0x7F ≤ c.toNat && c.toNat ≤ 0x9F)

/-- Characters as a field takes them: a blank for a tab or the end of a line, and no
other control character. -/
def clean (cs : List Char) : List Char :=
  cs.filterMap fun c =>
    if c = '\t' || c = '\n' || c = '\r' then some ' '
    else if isControl c || c = '\ufffd' then none
    else some c

/-- The text of a field. -/
def text (f : TextField) : String := String.ofList f.chars

/-- The text of a field as bytes. -/
def bytes (f : TextField) : Bytes := Utf8.encode f.chars

def isEmpty (f : TextField) : Bool := f.chars.isEmpty

/-- Moves the cursor, not beyond the end. -/
def moveTo (f : TextField) (cursor : Nat) : TextField :=
  { f with cursor := min cursor f.chars.length }

/-- A field with a text and the cursor at a place. -/
def ofChars (cs : List Char) (cursor : Nat) : TextField := moveTo ⟨(clean cs).take limit, 0⟩ cursor

/-- Puts a character at the cursor. -/
def insert (f : TextField) (c : Char) : TextField :=
  let new := (clean [c]).take (limit - f.chars.length)
  ⟨f.chars.take f.cursor ++ new ++ f.chars.drop f.cursor, f.cursor + new.length⟩

/-- Removes the character before the cursor. -/
def backspace (f : TextField) : TextField :=
  ⟨f.chars.take (f.cursor - 1) ++ f.chars.drop f.cursor, f.cursor - 1⟩

/-- Removes the character at the cursor. -/
def delete (f : TextField) : TextField :=
  { f with chars := f.chars.take f.cursor ++ f.chars.drop (f.cursor + 1) }

def left (f : TextField) : TextField := f.moveTo (f.cursor - 1)

def right (f : TextField) : TextField := f.moveTo (f.cursor + 1)

def home (f : TextField) : TextField := f.moveTo 0

def toEnd (f : TextField) : TextField := f.moveTo f.chars.length

end TextField

/-! ## the prompt -/

/-- The cycle through the completions of a word. -/
structure Cycle where
  /-- The field before the cycle began. -/
  before : TextField
  /-- Which completion stands in the field. -/
  index : Nat
  deriving DecidableEq, Repr, Inhabited

/-- The state of the prompt. -/
structure Prompt where
  session : Session
  files : Files := {}
  history : History := {}
  /-- The entry of the history that is shown; their number when none is. -/
  position : Nat := history.size
  field : TextField := {}
  mode : Mode := .statement
  /-- What was typed in the mode that is not active. -/
  kept : TextField := {}
  /-- The word at the cursor and its completions, the best first. -/
  word : Span := {}
  completions : List String := []
  cycle : Option Cycle := none
  /-- The mode and the field from which the commands of the history are walked. -/
  walk : Option (Mode × TextField) := none
  width : Int := 80
  /-- The session is over. -/
  ended : Bool := false
  deriving Repr, Inhabited

namespace Prompt

/-- The commands by their names. -/
def commands : List String :=
  ["help", "list", "undo", "set", "frame", "graph", "effects", "edit", "write", "clear", "quit"]

def registry (p : Prompt) : Registry := p.session.engine.library.registry

/-! ## completions -/

/-- The word at the cursor and its completions.  Only the first word of a command is
completed. -/
def complete (p : Prompt) : Span × List String :=
  let line := p.field.bytes
  let span := Span.wordAt line p.field.cursor
  let before := line.take span.start
  let word := Bytes.toString (span.of line)
  (span, match p.mode with
    | .command =>
      if before.contains (Bytes.ofChar ' ') then [] else Completion.select .free word commands
    | .statement =>
      let context := WordContext.after before
      Completion.select context word (Completion.candidates p.registry p.session.search context))

/-- Drops the completions and the cycle through them. -/
def settle (p : Prompt) : Prompt := { p with completions := [], cycle := none }

/-- Completes the word at the cursor anew. -/
def refresh (p : Prompt) : Prompt :=
  let (word, completions) := p.complete
  { p with word, completions }

/-- Completes the word at the cursor anew.  A word that is its only completion is
settled. -/
def refreshTyped (p : Prompt) : Prompt :=
  let p := p.refresh
  match p.completions with
  | [name] => if p.word.of p.field.bytes = Bytes.ofString name then p.settle else p
  | _ => p

/-- Puts a completion in place of the word. -/
def replaceWord (p : Prompt) (name : String) : Prompt :=
  let new := Bytes.ofString name
  let stop := p.word.start + new.length
  let field := TextField.ofChars (Utf8.decode (p.word.replace p.field.bytes new)) stop
  { p with field, word := { p.word with stop } }

/-- Steps through the completions, forward or back.  A single one is taken at once. -/
def step (p : Prompt) (forward : Bool) : Prompt :=
  match p.completions with
  | [] => p
  | [name] => (p.replaceWord name).settle
  | names =>
    let n := names.length
    let cycle : Cycle := match p.cycle with
      | some c => { c with index := (if forward then c.index + 1 else c.index + n - 1) % n }
      | none => { before := p.field, index := if forward then 0 else n - 1 }
    { p with cycle := some cycle }.replaceWord (names.getD cycle.index "")

/-! ## modes and history -/

/-- Switches to a mode; what is typed in each mode is kept for the next switch. -/
def switchTo (p : Prompt) (mode : Mode) : Prompt :=
  if p.mode = mode then p else { p with mode, kept := p.field, field := p.kept }.refresh

/-- The position past the newest entry. -/
def newest (p : Prompt) : Nat := p.history.size

/-- The nearest entry before or behind the position that satisfies `keep`. -/
def nearest? (p : Prompt) (forward : Bool) (keep : HistoryEntry → Bool) : Option Nat :=
  let positions := List.range p.history.size
  let ahead :=
    if forward then positions.filter (p.position < ·)
      else (positions.filter (· < p.position)).reverse
  ahead.find? fun i => p.history.entries[i]?.any keep

/-- Shows an entry of the history, in its mode when `follow`. -/
def showEntry (p : Prompt) (i : Nat) (follow : Bool) : Prompt :=
  match p.history.entries[i]? with
  | none => p
  | some e =>
    let p := if follow then p.switchTo e.mode else p
    { p with position := i, field := .ofChars e.line.toList e.line.utf8ByteSize }.refresh

/-- Goes to the nearest entry; beyond the newest one the field is empty. -/
def browse (p : Prompt) (forward follow : Bool) (keep : HistoryEntry → Bool) : Prompt :=
  match p.nearest? forward keep with
  | some i => p.showEntry i follow
  | none =>
    if forward && p.position < p.newest then
      { p with position := p.newest, field := {} }.refresh
    else p

/-- Walks through the commands of the history.  At either end the walk is over, and
the mode and the field from which it began are back. -/
def browseCommands (p : Prompt) (forward : Bool) : Prompt :=
  let (mode, field) := p.walk.getD (p.mode, p.field)
  let p := if p.walk.isSome then p else { p with walk := some (mode, field) }.switchTo .command
  match p.nearest? forward (·.mode = .command) with
  | some i => p.showEntry i false
  | none =>
    let p := { p with walk := none }.switchTo mode
    { p with field, position := p.newest }.refresh

end Prompt

end EffectChain
