import EffectChain.Command.Line
import EffectChain.Command.LogFlags
import EffectChain.Live.Hint
import EffectChain.Live.Key
import EffectChain.Log.Logger

/-!
# EffectChain.Main

The program on a real machine.  The files that the command line names are read before
a command runs, and those it has written are written back afterwards; everything in
between is `CommandLine.run`.

A session at the terminal goes line by line: a line is a statement, or a command when
it begins with a colon.
-/

namespace EffectChain.Main

/-- The texts of a command line that may be the names of files. -/
def namedPaths (args : List String) : List String :=
  (args.flatMap fun arg =>
    let value := ((Text.cut? '=' arg).map (·.2)).getD arg
    let bare := if arg.startsWith "-" then [(arg.drop 2).toString] else []
    arg :: value :: Text.splitChar ',' value ++ bare).eraseDups.filter (· ≠ "")

/-- Where the configuration and the cache of the user are. -/
structure Places where
  config : String
  cache : String

/-- The places the environment names. -/
def places : IO Places := do
  let home := (← IO.getEnv "HOME").getD "."
  return { config := (← IO.getEnv "XDG_CONFIG_HOME").getD (home ++ "/.config")
           cache := (← IO.getEnv "XDG_CACHE_HOME").getD (home ++ "/.cache") }

/-- The path on the machine of a path of the tree of files. -/
def Places.locate (p : Places) (path : String) : String :=
  if path.startsWith "config/" then p.config ++ (path.drop 6).toString
  else if path.startsWith "cache/" then p.cache ++ (path.drop 5).toString
  else path

/-- The content of a file that can be read. -/
def content? (path : String) : IO (Option String) := do
  try return some (← IO.FS.readFile path) catch _ => return none

/-- The files among some paths. -/
def readFiles (p : Places) (paths : List String) : IO Files := do
  let mut files : Files := { root := toString (← IO.currentDir) }
  for path in paths do
    if let some text ← content? (p.locate path) then files := files.write path text
  return files

/-- Writes the files that are new or have another content. -/
def writeFiles (p : Places) (before after : Files) : IO Unit := do
  for (path, content) in after.entries.entries do
    match content with
    | none => if before.entries.get? path ≠ some none then IO.FS.createDirAll (p.locate path)
    | some text => if before.read? path ≠ some text then IO.FS.writeFile (p.locate path) text

/-- Everything up to the end of a stream. -/
partial def readAll (stream : IO.FS.Stream) (text : String) : IO String := do
  let line ← stream.getLine
  if line.isEmpty then return text else readAll stream (text ++ line)

/-- The logger that the flags of a command line ask for. -/
def logger (args : List String) : Log.Logger :=
  let f := LogFlags.scan {} args
  { level := f.inForce.1, format := f.inForce.2, pretty := f.pretty }

/-- Prints what the prompt replies. -/
def printReplies (rs : List Reply) : IO Unit :=
  for r in rs do
    match r with
    | .text s => IO.println s
    | .clear => IO.print "\x1b[2J\x1b[H"
    | .edit | .quit => pure ()

/-- Types a line at the prompt and submits it. -/
def submitLine (p : Prompt) (line : String) : Prompt × List Reply :=
  let (mode, text) : Mode × String := match line.toList with
    | ':' :: cs => (.command, String.ofList cs)
    | cs => (.statement, String.ofList cs)
  let p := text.toList.foldl (fun p c => (p.press (.char c)).1) (p.switchTo mode)
  p.press .enter

/-- Reads lines until the session is over. -/
partial def converse (stream : IO.FS.Stream) (places : Places) (p : Prompt) : IO Unit := do
  IO.print (Prompt.mark .statement)
  let line ← stream.getLine
  if line.isEmpty || p.ended then return
  let (q, replies) := submitLine p (Text.trimEnd (fun c => c = '\n' || c = '\r') line)
  printReplies replies
  writeFiles places p.files q.files
  if q.ended then return else converse stream places q

/-- Starts a session at the terminal. -/
def openPrompt (places : Places) (files : Files) (session : Session) : IO Unit := do
  let (p, notice) := Prompt.change { session, files } session.load
  printReplies [notice]
  converse (← IO.getStdin) places p

/-- Reports why the program fails. -/
def report (args : List String) (message : String) (attrs : List (String × String)) :
    IO UInt32 := do
  let as := attrs.map fun (k, v) => (k, Log.Value.text v)
  IO.eprint ((logger args).record .error "run failed" [("error", .failure message as)])
  return 1

end EffectChain.Main

open EffectChain EffectChain.Main in
/-- Runs the command line of the process. -/
def main (args : List String) : IO UInt32 := do
  let places ← places
  let files ← readFiles places (CommandLine.configFile :: namedPaths args)
  let input ← if CommandLine.readsInput files args then readAll (← IO.getStdin) "" else pure ""
  let (outcome, shell) := CommandLine.run args { files, input }
  IO.print shell.output
  writeFiles places files shell.files
  match outcome with
  | .done => return 0
  | .exit code => return code.toUInt32
  | .usage e => report args e.message []
  | .failed e => report args e.message e.attrs
  | .live session =>
    openPrompt places shell.files session
    return 0
