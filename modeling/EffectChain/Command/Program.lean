import EffectChain.Catalog.Listing
import EffectChain.Command.Basic
import EffectChain.Graph.Listing

/-!
# EffectChain.Command.Program

The commands that work on a program: checking, formatting, printing its graph and
running it; and the listing of effects.
-/

namespace EffectChain

namespace Action

/-- Writes why a program cannot be compiled.  The line of the source that is shown
below a syntax error stays as it is. -/
def reportFailure (name : String) (e : EngineError) : Action Unit := do
  match e with
  | .compile (.notParsed err) =>
    line (Text.styled (name ++ ": " ++ err.headline))
    write err.snippet
  | e => line (Text.styled (name ++ ": " ++ e.message))

/-- Writes the problems of a program and counts the errors among them.  When
`quiet`, only errors are written. -/
def report (name : String) (c : Compiled) (quiet : Bool) : Action Nat := do
  let shown := c.plan.diagnostics.filter fun d => d.severity = .error || !quiet
  for d in shown do line (Text.styled (name ++ ": " ++ d.text))
  for e in c.graph.errors do line (Text.styled (name ++ ": " ++ e.text))
  return (c.plan.diagnostics.filter (·.severity = .error)).length + c.graph.errors.length

/-- The engine of a command. -/
def engine (s : Settings) (strict validate : Bool) : Action RecordingEngine := do
  orFail id (RecordingEngine.make s (← get).files strict validate)

/-- A program compiled without running it; problems do not refuse it. -/
def compiled (s : Settings) (file : String) : Action (RecordingEngine × Compiled) := do
  let text ← readSource file
  let e ← engine s false false
  match e.compile text [] with
  | .ok c => return (e, c)
  | .error err =>
    reportFailure file err
    throw (.notCompiled file err)

end Action

namespace Command

open EffectChain.Action

/-- Compiles a program and reports its problems. -/
def check (s : Settings) (quiet : Bool) (file : String) : Action Unit := do
  let (_, c) ← compiled s file
  let errors ← report file c quiet
  if errors > 0 then throw (.hasErrors file errors)
  if !quiet then
    line (Text.styled (file ++ ": ok (" ++ toString c.plan.steps.length ++ " steps, " ++
      toString c.graph.passes.length ++ " passes, " ++ toString c.alloc.size ++ " slots)"))

/-- Writes a program in canonical form, with arguments replaced, to the output or
over its file. -/
def format (s : Settings) (sets : List String) (inPlace : Bool) (file : String) : Action Unit := do
  let overrides ← orFail .badOverride (Overrides.parse sets)
  let (e, c) ← compiled s file
  let text ← orFail .override (c.plan.source e.library.registry overrides)
  if !inPlace || file = "-" then write text
  else
    let files ← orFail .unwritable ((← get).files.create file text)
    modify fun sh => { sh with files }

/-- Writes the graph of a program. -/
def graph (s : Settings) (format : String) (indent : Nat) (file : String) : Action Unit := do
  let (_, c) ← compiled s file
  match ListingFormat.ofName? format with
  | some f => write (c.graph.listing (some c.alloc) f indent)
  | none => throw (.unknownFormat format)

/-- Renders frames, counted from `index`. -/
def frames (e : RecordingEngine) (ns : Int) (index : Nat) : Nat → Action RecordingEngine
  | 0 => return e
  | n + 1 =>
    match e.advance ns with
    | (e, none) => frames e ns (index + 1) n
    | (_, some err) => throw (.frame index err)

/-- Runs a program for some frames and counts the calls made to the backend. -/
def run (s : Settings) (count : Nat) (ns : Int) (validate trace : Bool) (file : String) :
    Action Unit := do
  let text ← readSource file
  let e ← engine s s.strict validate
  match e.recompile text with
  | (_, .error err) =>
    reportFailure file err
    throw (.notCompiled file err)
  | (e, .ok c) =>
    let _ ← report file c true
    let e ← frames e ns 0 count
    if trace then for call in e.recorder.calls do line call.text
    for (method, n) in e.recorder.counts.entries do
      line (Text.padRight 16 method ++ " " ++ toString n)
    if validate then line (Text.padRight 16 "spirv" ++ " " ++ toString e.exec.backend.passed.size)

/-- Lists the effects whose names a pattern matches. -/
def catalog (s : Settings) (verbose : Bool) (pattern : String) : Action Unit := do
  let e ← engine s s.strict false
  for name in filterNames pattern e.library.catalog.names do
    match e.library.catalog.lookup? name with
    | some d => for text in d.listing verbose do line text
    | none => pure ()

end Command

end EffectChain
