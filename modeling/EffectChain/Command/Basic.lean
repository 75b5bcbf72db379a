import EffectChain.Catalog.Builtin
import EffectChain.Catalog.Directory
import EffectChain.Engine.Basic
import EffectChain.Render.Recorder
import EffectChain.Text.Styled

/-!
# EffectChain.Command.Basic

What commands have in common: the settings of the engine, the files and streams
they work on, and the reasons they fail.

A command is an action on a `Shell`.  What it has written stays written when it
fails.
-/

namespace EffectChain

/-- The settings of the engine that every command shares. -/
structure Settings where
  /-- Catalog files. -/
  includes : List String := []
  /-- A directory of catalog files, installed first. -/
  effects : String := ""
  width : Int := 1280
  height : Int := 720
  /-- Programs with problems are refused. -/
  strict : Bool := false
  deriving DecidableEq, Repr, Inhabited

/-- What a command works on. -/
structure Shell where
  files : Files := {}
  /-- The text on the standard input. -/
  input : String := ""
  /-- The text written so far. -/
  output : String := ""
  deriving Repr, Inhabited

/-- Why a command fails. -/
inductive CommandError where
  | unreadableSource (error : FileError)
  | catalogDir (error : FileError)
  | catalogFile (file : String) (error : CatalogError)
  | engine (error : RenderError)
  /-- The program cannot be compiled. -/
  | notCompiled (file : String) (error : EngineError)
  /-- The program has problems. -/
  | hasErrors (file : String) (count : Nat)
  | badOverride (text : String)
  | override (error : OverrideError)
  | unknownFormat (name : String)
  | frame (index : Nat) (error : RenderError)
  | unwritable (error : FileError)
  | noConfigPath
  /-- A file that is not to be overwritten. -/
  | fileExists (file : String)
  | unwritableConfig (error : FileError)
  | unwritableLog (error : FileError)
  deriving Repr, Inhabited

namespace CommandError

/-- The text of an override that is none. -/
def overrideMessage : String := "invalid argument override (want TEMP.PARAM=VALUE)"

def message : CommandError → String
  | .unreadableSource e => "read program source: " ++ e.message
  | .catalogDir e => "install effect catalog: " ++ e.message
  | .catalogFile _ e => "install effect catalog: " ++ e.message
  | .engine e => e.message
  | .notCompiled _ e => "program has errors: " ++ e.message
  | .hasErrors .. => "program has errors"
  | .badOverride _ => overrideMessage
  | .override e => e.message
  | .unknownFormat _ => "unsupported output format"
  | .frame _ e => "frame failed: " ++ e.message
  | .unwritable e => e.message
  | .noConfigPath => "configuration path undefined"
  | .fileExists _ => "write configuration file: file exists (use --force to overwrite)"
  | .unwritableConfig e => "write configuration file: " ++ e.message
  | .unwritableLog e => "open log file: " ++ e.message

/-- The details as named texts. -/
def attrs : CommandError → List (String × String)
  | .unreadableSource e => [("file", e.path)]
  | .catalogDir e => [("dir", e.path)]
  | .catalogFile file _ => [("file", file)]
  | .engine e => e.attrs
  | .notCompiled file _ => [("file", file)]
  | .hasErrors file count => [("file", file), ("errors", toString count)]
  | .badOverride text => [("override", text)]
  | .override e => e.attrs
  | .unknownFormat name => [("format", name)]
  | .frame index _ => [("frame", toString index)]
  | .unwritable _ | .noConfigPath => []
  | .fileExists file => [("file", file), ("exists", "true")]
  | .unwritableConfig e | .unwritableLog e => [("file", e.path)]

end CommandError

/-- An action on a shell, which may fail. -/
abbrev Action := ExceptT CommandError (StateM Shell)

namespace Action

/-- Writes a text. -/
def write (s : String) : Action Unit := modify fun sh => { sh with output := sh.output ++ s }

/-- Writes a line. -/
def line (s : String) : Action Unit := write (s ++ "\n")

/-- The result, or the failure it stands for. -/
def orFail {ε α : Type} (f : ε → CommandError) (r : Except ε α) : Action α :=
  match r with
  | .ok x => pure x
  | .error e => throw (f e)

/-- The text of a program: the standard input for `-`, else a file. -/
def readSource (path : String) : Action String := do
  if path = "-" then return (← get).input
  orFail .unreadableSource ((← get).files.read path)

end Action

/-- An engine whose backend records the calls made to it. -/
abbrev RecordingEngine := Engine (ShaderCheck Recorder)

namespace RecordingEngine

/-- The recorder below an engine. -/
def recorder (e : RecordingEngine) : Recorder := e.exec.backend.inner

/-- Installs catalog files in order. -/
def install (e : RecordingEngine) (files : Files) :
    List String → Except CommandError RecordingEngine
  | [] => .ok e
  | p :: ps =>
    match e.library.installFile files p with
    | (library, none) => install { e with library } files ps
    | (_, some err) => .error (.catalogFile p err)

/-- An engine with the built-in effects and those of the settings. -/
def make (s : Settings) (files : Files) (strict validate : Bool) :
    Except CommandError RecordingEngine :=
  match files.catalogs s.effects with
  | .error e => .error (.catalogDir { e with path := s.effects })
  | .ok dir =>
    let backend : ShaderCheck Recorder := { inner := {}, enabled := validate }
    match (Executor.start backend s.width s.height).2 with
    | .error e => .error (.engine e)
    | .ok exec =>
      install { library := Library.builtin, exec, strict } files
        (files.distinct (dir ++ s.includes))

end RecordingEngine

end EffectChain
