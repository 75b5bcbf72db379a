import EffectChain.Command.Arguments
import EffectChain.Command.Program
import EffectChain.Document.Yaml
import EffectChain.Live.Session
import EffectChain.Log.Record
import EffectChain.Number.Read
import EffectChain.Storage.Files

/-!
# EffectChain.Command.Line

The name and the version of the program, and its whole command line: which
commands and flags there are, what is read from the configuration file, and what
each command does.
-/

namespace EffectChain

/-- The name of the program. -/
def programName : String := "fxc"

/-- The version of the program. -/
def programVersion : String := "0.1.0"

/-- The last component of a path, slashes at its end left out. -/
def Path.lastName (p : String) : String :=
  match (p.toList.reverse.dropWhile (· = '/')).reverse with
  | [] => if p = "" then "." else "/"
  | cs => base (String.ofList cs)

/-- The name given to a program by a debugger. -/
def isDebugName (s : String) : Bool :=
  s.startsWith "__debug_bin" && (s.drop 11).toString.toList.all Number.isDigit

/-- The name the directories of a program are known by: the name of its file
without its ending and without dots before it. -/
def nameOfExecutable (path : String) : String :=
  let name := Path.lastName path
  let stem := String.ofList (name.toList.take (name.length - (Path.extension name).length))
  let stem := if isDebugName stem then programName else stem
  let stem := String.ofList (stem.toList.dropWhile (· = '.'))
  if stem = "" then programName else stem

namespace CommandLine

/-! ## the grammar -/

def logFlags : List Flag :=
  [{ name := "log-level", kind := .word, default := some "info",
     choices := Log.Level.named.map (·.1) },
   { name := "log-format", kind := .word, default := some "json", choices := ["json", "text"] },
   { name := "log-file", kind := .path },
   { name := "log-time-layout", kind := .text, default := some "RFC3339" },
   { name := "log-caller", kind := .switch, negatable := true, default := some "false" },
   { name := "log-pretty", kind := .switch, negatable := true, default := some "true" }]

def engineFlags : List Flag :=
  [{ name := "include", kind := .files, short := some 'I' },
   { name := "effects", kind := .path, default := some "$\x7beffectDir=\x7d" },
   { name := "width", kind := .whole, default := some "1280" },
   { name := "height", kind := .whole, default := some "720" },
   { name := "strict", kind := .switch, negatable := true }]

/-- The flags whose values a configuration file keeps. -/
def savedFlags : List Flag := logFlags ++ engineFlags

def sourceArg : Flag := { name := "source", kind := .text, default := some "-", positional := true }

def checkSpec : CommandSpec :=
  { name := "check", flags := [{ name := "quiet", kind := .switch, short := some 'q' }],
    args := [sourceArg] }

def formatSpec : CommandSpec :=
  { name := "fmt"
    flags := [{ name := "set", kind := .texts, short := some 's' },
      { name := "write", kind := .switch, short := some 'w' }]
    args := [sourceArg] }

def graphSpec : CommandSpec :=
  { name := "graph"
    flags :=
      [{ name := "format", kind := .text, short := some 'o', default := some "yaml",
         choices := ["yaml", "json"] },
       { name := "indent", kind := .whole, short := some 'i', default := some "2" }]
    args := [sourceArg] }

def runSpec : CommandSpec :=
  { name := "run"
    flags := [{ name := "frames", kind := .whole, short := some 'n', default := some "1" },
      { name := "step", kind := .duration, default := some "16ms" },
      { name := "validate", kind := .switch, short := some 'V' },
      { name := "trace", kind := .switch, short := some 't' }]
    args := [sourceArg] }

def catalogSpec : CommandSpec :=
  { name := "catalog"
    flags := [{ name := "verbose", kind := .switch, short := some 'v' }]
    args := [{ name := "filter", kind := .text, positional := true }] }

def initSpec : CommandSpec :=
  { name := "init"
    flags := [{ name := "force", kind := .switch, short := some 'f' },
      { name := "program", kind := .path }] }

def replSpec : CommandSpec :=
  { name := "repl"
    flags := [{ name := "validate", kind := .switch, short := some 'V' }]
    args := [{ name := "source", kind := .file, positional := true }] }

def grammar : Grammar :=
  { flags := { name := "help", kind := .switch, short := some 'h' } :: logFlags ++ engineFlags ++
      [{ name := "version", kind := .switch }]
    commands := [checkSpec, formatSpec, graphSpec, runSpec, catalogSpec, initSpec, replSpec]
    default := replSpec }

/-! ## commands -/

/-- The directory of the configuration. -/
def configDir : String := "config/" ++ programName

/-- The configuration file. -/
def configFile : String := configDir ++ "/config.yaml"

/-- The directories a run makes when they are missing. -/
def ownDirs : List String := [configDir, "cache/" ++ programName, configDir ++ "/effects"]

/-- The program that is written to start from. -/
def starterProgram : String :=
  "search basics, filter

noise(scale: 8, speed: 0.2)
  .blend(tex: o1, mode: screen, amount: 0.4)
  .out(o0)

osc(frequency: 20).out(o1)
"

/-- The value of a flag as it is kept in a configuration file; empty ones are not. -/
def saved? : FlagValue → Option Document
  | .switch b => some (.bool b)
  | .text s => if s = "" then none else some (.text s)
  | .whole i => some (.int i)
  | .duration ns => some (.text (Duration.text ns))
  | .texts xs => if xs.isEmpty then none else some (.ofStrings xs)

/-- The text of a configuration file with the values of an invocation. -/
def configText (i : Invocation) (files : Files) : String :=
  String.join (savedFlags.filterMap fun f =>
    (saved? (i.value files "" f)).map fun d => (Document.map [(f.name, d)]).yaml 2)

/-- Writes a file, over one that is there only when `force` is set. -/
def writeNew (force : Bool) (path content : String) : Action Unit := do
  let files := (← get).files
  if files.contains path && !force then throw (.fileExists path)
  let files ← Action.orFail .unwritableConfig (files.create path content)
  modify fun sh => { sh with files }

/-- Writes a configuration file, and a program to start from if a path is given. -/
def init (i : Invocation) (force : Bool) (program : String) : Action Unit := do
  let files := (← get).files
  writeNew force (files.absolute configFile) (configText i files)
  if program ≠ "" then writeNew force program starterProgram

/-- Makes a log file if it is missing. -/
def openLog (path : String) : Action Unit := do
  let files := (← get).files
  if path ≠ "" && !(files.read path).toOption.isSome then
    let files ← Action.orFail .unwritableLog (files.create path "")
    modify fun sh => { sh with files }

/-- The values of an invocation. -/
structure Values where
  invocation : Invocation
  files : Files
  command : CommandSpec

namespace Values

/-- The value of a flag of the program or the command. -/
def get (v : Values) (name : String) : FlagValue :=
  let own := (v.command.flags ++ v.command.args).find? (·.name = name)
  match own, grammar.flags.find? (·.name = name) with
  | some f, _ => v.invocation.value v.files v.command.name f
  | none, some f => v.invocation.value v.files "" f
  | none, none => .text ""

def switch (v : Values) (name : String) : Bool :=
  match v.get name with
  | .switch b => b
  | _ => false

def text (v : Values) (name : String) : String :=
  match v.get name with
  | .text s => s
  | _ => ""

def texts (v : Values) (name : String) : List String :=
  match v.get name with
  | .texts xs => xs
  | _ => []

def whole (v : Values) (name : String) : Int :=
  match v.get name with
  | .whole i | .duration i => i
  | _ => 0

/-- The settings of the engine. -/
def settings (v : Values) : Settings :=
  { includes := v.texts "include"
    effects := v.text "effects"
    width := v.whole "width"
    height := v.whole "height"
    strict := v.switch "strict" }

end Values

/-- Opens a session on the program of a file, or on none. -/
def openSession (s : Settings) (validate : Bool) (file : String) : Action Session := do
  let text ← if file = "" then pure "" else Action.readSource file
  return .start (← Action.engine s s.strict validate) text

/-- Runs the command of an invocation; a session goes on at the terminal. -/
def perform (v : Values) : Action (Option Session) := do
  let s := v.settings
  let source := v.text "source"
  openLog (v.text "log-file")
  match v.command.name with
  | "check" => Command.check s (v.switch "quiet") source
  | "fmt" => Command.format s (v.texts "set") (v.switch "write") source
  | "graph" => Command.graph s (v.text "format") (v.whole "indent").toNat source
  | "run" =>
      Command.run s (v.whole "frames").toNat (v.whole "step") (v.switch "validate")
        (v.switch "trace") source
  | "catalog" => Command.catalog s (v.switch "verbose") (v.text "filter")
  | "init" => init v.invocation (v.switch "force") (v.text "program")
  | _ => return some (← openSession s (v.switch "validate") source)
  return none

/-- How a command line ends. -/
inductive Outcome where
  | done
  /-- A session goes on at the terminal. -/
  | live (session : Session)
  /-- The program ends at once with a code. -/
  | exit (code : Nat)
  | usage (error : UsageError)
  | failed (error : CommandError)
  deriving Repr, Inhabited

/-- Reads a command line and the configuration. -/
def parse (files : Files) (args : List String) : Except UsageError Invocation := do
  let i ← Invocation.read grammar files args
  if i.values.contains ".version" || i.values.contains ".help" then return i
  let i ← i.configure grammar files (.read ((files.read? configFile).getD ""))
  i.checkChoices grammar files
  return i

/-- Whether a command line has a program read from the standard input. -/
def readsInput (files : Files) (args : List String) : Bool :=
  match parse files args with
  | .ok i =>
    let command := i.command.getD grammar.default
    command.args.any fun f => f.name = "source" && i.value files command.name f == .text "-"
  | .error _ => false

/-- Runs a command line. -/
def run (args : List String) (shell : Shell) : Outcome × Shell :=
  let shell := { shell with files := ownDirs.foldl Files.makeDir shell.files }
  match parse shell.files args with
  | .error e => (.usage e, shell)
  | .ok i =>
    if i.values.contains ".help" then (.exit 0, shell)
    else if i.values.contains ".version" then
      (.exit 0, { shell with output := shell.output ++ programVersion ++ "\n" })
    else
      let v : Values :=
        { invocation := i, files := shell.files, command := i.command.getD grammar.default }
      match (perform v).run.run shell with
      | (.ok none, shell) => (.done, shell)
      | (.ok (some session), shell) => (.live session, shell)
      | (.error e, shell) => (.failed e, shell)

end CommandLine

end EffectChain
