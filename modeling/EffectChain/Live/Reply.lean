import EffectChain.Catalog.Listing
import EffectChain.Live.Prompt
import EffectChain.Number.Whole

/-!
# EffectChain.Live.Reply

What the prompt does with a submitted line, and what it prints.
-/

namespace EffectChain

/-- What the prompt prints or asks of the terminal. -/
inductive Reply where
  | text (s : String)
  /-- The program goes to an editor. -/
  | edit
  | clear
  | quit
  deriving DecidableEq, Repr, Inhabited

/-- What came of editing the program elsewhere. -/
inductive EditOutcome where
  | edited (source : String)
  | cancelled
  | declined
  | failed (message : String)
  deriving DecidableEq, Repr, Inhabited

namespace Prompt

/-- What `help` prints. -/
def helpText : String := Text.ofLines
  ["",
   ": Commands (press Esc to toggle mode):",
   "",
   "  help              Print this cruft",
   "  list              Print the program",
   "  undo              Drop the last line",
   "  set T.P=V ...     Override argument P of step T and reload",
   "  frame [N]         Run N frames (default 1)",
   "  graph             Print the render graph",
   "  effects [FILTER]  List effects",
   "  edit              Edit the program in external $EDITOR",
   "  write FILE        Save the program",
   "  clear             Clear screen",
   "  quit              Exit REPL",
   "",
   "Usage:",
   "  Type a statement to append it to the program; it runs if it compiles",
   "  Completions appear automatically as you type",
   "  Press Tab / Shift-Tab to cycle through candidates",
   "  Press Space to accept the current candidate",
   "  Press Esc to toggle between eval and command modes",
   "  Use Up/Down arrows for history navigation (mode switches automatically)",
   "  Use Shift+Up/Shift+Down for history navigation within current mode only",
   "  Use Alt+Up/Alt+Down to switch to command mode and navigate command history",
   "    (restores original mode when reaching end of history)",
   "  Press Ctrl+C on empty line or Ctrl+D to exit"]

/-- A program that was taken over: its problems, why its first frame failed, and what
it is made of. -/
def compiledText (c : Compiled) (frame : Option SessionError) : String :=
  "\n".intercalate
    (c.plan.diagnostics.map (Text.styled ·.text) ++ c.graph.errors.map (Text.styled ·.text) ++
      (frame.map fun e => Text.styled ("frame: " ++ e.message)).toList ++
      [s!"✔ {c.plan.id} · {c.graph.passes.length} passes · {c.alloc.size} slots"])

/-- Takes a change of the program over and renders a frame of it, or says why it was
refused. -/
def change (p : Prompt) : Session.Change → Prompt × Reply
  | (session, .error e) => ({ p with session }, .text e.shown)
  | (session, .ok c) =>
    let (session, frame) := session.run 1
    ({ p with session }, .text (compiledText c frame))

/-- The lines of the program with their numbers. -/
def listing (p : Prompt) : String :=
  let lines := p.session.lines
  let width := (toString lines.length).length
  "\n".intercalate (lines.mapIdx fun i line => Text.padLeft width (toString (i + 1)) ++
    "  " ++ line)

/-- The effects whose names a pattern matches, each with its description. -/
def effects (p : Prompt) (pattern : String) : String :=
  let catalog := p.session.engine.library.catalog
  let ds := (filterNames pattern catalog.names).filterMap catalog.lookup?
  Text.trimEnd (· = '\n')
    ("\n".intercalate (ds.map fun d => "  " ++ d.canonical ++ " " ++ Text.styled d.description))

/-- Renders as many frames as an argument says, one without it. -/
def runFrames (p : Prompt) (count : Option String) : Prompt × Reply :=
  match (count.map Number.whole?).getD (some 1) with
  | none => refused
  | some n =>
    if n < 1 then refused
    else match p.session.run n.toNat with
      | (session, none) => ({ p with session }, .text session.summary)
      | (session, some e) => ({ p with session }, .text e.shown)
where
  refused : Prompt × Reply := (p, .text "frame count must be a positive integer")

/-- Writes the program to a file. -/
def save (p : Prompt) : List String → Prompt × Reply
  | [file] =>
    match p.files.create file p.session.source with
    | .ok files => ({ p with files }, .text (Text.styled ("✔ wrote " ++ file)))
    | .error e => (p, .text (errorText e.message))
  | _ => (p, .text "usage: write FILE")

/-- What a known command does. -/
def command? (p : Prompt) (name : String) (args : List String) : Option (Prompt × Reply) :=
  match name with
  | "q" | "quit" | "exit" => some ({ p with ended := true }, .quit)
  | "h" | "help" => some (p, .text helpText)
  | "l" | "list" => some (p, .text p.listing)
  | "u" | "undo" => some (p.change p.session.undo)
  | "s" | "set" => some (p.change (p.session.override args))
  | "f" | "frame" => some (p.runFrames args.head?)
  | "g" | "graph" =>
    some (p, .text (match p.session.graph with
      | .ok text => Text.trimEnd (· = '\n') text
      | .error e => e.shown))
  | "effects" => some (p, .text (p.effects (" ".intercalate args)))
  | "e" | "edit" => some (p, .edit)
  | "w" | "write" => some (p.save args)
  | "c" | "clear" => some (p, .clear)
  | _ => none

/-- What stands before a submitted line. -/
def mark : Mode → String
  | .statement => "➜ "
  | .command => " :"

/-- Carries a command out.  The line is repeated before the reply, but not before a
cleared screen or for an unknown command. -/
def execute (p : Prompt) (line : String) : Prompt × List Reply :=
  match Text.fields Text.isSpace line with
  | [] => (p, [])
  | name :: args =>
    match p.command? name args with
    | some (p, .clear) => (p, [.clear])
    | some (p, reply) => (p, [.text (mark .command ++ line), reply])
    | none => (p, [.text (Text.styled ("Unknown command: " ++ name ++ " (try 'help')"))])

/-- Submits the line; a blank one is left as it is. -/
def submit (p : Prompt) : Prompt × List Reply :=
  let line := Text.trimSpace p.field.text
  if line = "" then (p, [])
  else
    let history := p.history.add line p.mode
    let p := { p with history, position := history.size, field := {}, kept := {} }
    match p.mode with
    | .command => p.execute line
    | .statement =>
      let (p, reply) := p.change (p.session.append line)
      (p, [.text (mark .statement ++ line), reply])

/-- Takes what came of editing the program. -/
def takeEdit (p : Prompt) : EditOutcome → Prompt × List Reply
  | .edited source =>
    let (p, reply) := p.change (p.session.replace source)
    (p, [reply])
  | .cancelled => (p, [.text "edit cancelled"])
  | .declined => ({ p with ended := true }, [.quit])
  | .failed message => (p, [.text (errorText message)])

end Prompt

end EffectChain
