import EffectChain.Command.Basic
import EffectChain.Graph.Listing
import EffectChain.Text.Basic

/-!
# EffectChain.Live.Session

A program that is written line by line while it runs.  The engine runs the last
version that could be compiled, and the lines are that version's.
-/

namespace EffectChain

/-- Why a session refuses something. -/
inductive SessionError where
  | nothingToUndo
  | noProgram
  | badOverride (text : String)
  | engine (error : EngineError)
  | frame (error : RenderError)
  deriving Repr, Inhabited

namespace SessionError

def message : SessionError → String
  | .nothingToUndo => "nothing to undo"
  | .noProgram => "no program loaded"
  | .badOverride _ => CommandError.overrideMessage
  | .engine e => e.message
  | .frame e => e.message

end SessionError

/-- A message as it is shown. -/
def errorText (message : String) : String := Text.styled ("error: " ++ message)

/-- An error of the engine as it is shown.  The line of the source below a syntax
error stays as it is. -/
def EngineError.shown : EngineError → String
  | .compile (.notParsed e) =>
    Text.styled e.headline ++ "\n" ++ Text.trimEnd (· = '\n') e.snippet
  | e => errorText e.message

/-- An error of a session as it is shown. -/
def SessionError.shown : SessionError → String
  | .engine e => e.shown
  | e => errorText e.message

/-- A running program and its lines. -/
structure Session (β : Type := ShaderCheck Recorder) where
  engine : Engine β
  lines : List String
  deriving Repr, Inhabited

namespace Session

variable {β : Type} [Backend β]

/-- The first line of a program that has no other. -/
def header : String := "search basics, filter"

/-- The time between frames in nanoseconds. -/
def frameTime : Int := 16000000

/-- The lines of a program without blanks at their ends; blank lines do not count. -/
def linesOf (source : String) : List String :=
  ((Text.splitChar '\n' source).map (Text.trimEnd (" \t\r".toList.contains ·))).filter
    fun line => Text.trimSpace line ≠ ""

/-- A session on a program that is not loaded yet. -/
def start (engine : Engine β) (source : String) : Session β :=
  match linesOf source with
  | [] => { engine, lines := [header] }
  | lines => { engine, lines }

/-- The text of lines. -/
def sourceOf (lines : List String) : String := "\n".intercalate lines ++ "\n"

/-- The text of the program. -/
def source (s : Session β) : String := sourceOf s.lines

/-- A change of the program, or why it is refused. -/
abbrev Change (β : Type := ShaderCheck Recorder) := Session β × Except SessionError Compiled

/-- Makes lines the program.  Lines that cannot be compiled leave it as it is. -/
def apply (s : Session β) (lines : List String) : Change β :=
  match s.engine.recompile (sourceOf lines) with
  | (engine, .ok c) => ({ engine, lines }, .ok c)
  | (engine, .error e) => ({ s with engine }, .error (.engine e))

/-- Compiles the lines at hand. -/
def load (s : Session β) : Change β := s.apply s.lines

/-- Adds a line. -/
def append (s : Session β) (line : String) : Change β := s.apply (s.lines ++ [line])

/-- Drops the last line, but never the only one. -/
def undo (s : Session β) : Change β :=
  if s.lines.length < 2 then (s, .error .nothingToUndo) else s.apply s.lines.dropLast

/-- Makes a text the program. -/
def replace (s : Session β) (source : String) : Change β := s.apply (linesOf source)

/-- Writes the program anew with arguments replaced. -/
def override (s : Session β) (sets : List String) : Change β :=
  match Overrides.parse sets with
  | .error text => (s, .error (.badOverride text))
  | .ok overrides =>
    match s.engine.source overrides with
    | .error e => (s, .error (.engine e))
    | .ok text => s.replace text

/-- Renders frames up to the first that fails. -/
def frames (s : Session β) : Nat → Session β × Option SessionError
  | 0 => (s, none)
  | n + 1 =>
    match s.engine.advance frameTime with
    | (engine, none) => frames { s with engine } n
    | (engine, some e) => ({ s with engine }, some (.frame e))

/-- Renders frames of the running program. -/
def run (s : Session β) (n : Nat) : Session β × Option SessionError :=
  if s.engine.current.isNone then (s, some .noProgram) else s.frames n

/-- The namespaces that names are looked up in: those of the running program, else
those the first line with a search names. -/
def search (s : Session β) : List String :=
  match s.engine.current with
  | some c => c.plan.search
  | none =>
    match s.lines.findSome? fun line => (Text.trimSpace line).dropPrefix? "search" with
    | some rest => Text.fields (fun c => c = ',' || Text.isSpace c) rest.toString
    | none => []

/-- The graph of the running program. -/
def graph (s : Session β) : Except SessionError String :=
  match s.engine.current with
  | some c => .ok (c.graph.listing (some c.alloc) .yaml 2)
  | none => .error .noProgram

/-- The running program in one line. -/
def summary (s : Session) : String :=
  match s.engine.current with
  | none => "no program"
  | some c =>
    " · ".intercalate
      [c.plan.id, s!"{c.plan.steps.length} steps", s!"{c.graph.passes.length} passes",
       s!"{c.alloc.size} slots", s!"frame {s.engine.clock.frame}",
       toString ((RecordingEngine.recorder s.engine).counts.getD "ExecutePass" 0) ++ " dispatches"]

end Session

end EffectChain
