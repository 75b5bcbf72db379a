import EffectChain.Catalog.Basic
import EffectChain.Graph.Expand
import EffectChain.Plan.Lower
import EffectChain.Plan.Printer
import EffectChain.Render.Frame

/-!
# EffectChain.Engine.Basic

An engine holds one running program.  New source is compiled all the way to
programs and textures of the backend, and takes over only when every stage
succeeds.
-/

namespace EffectChain

/-- A program carried through every stage. -/
structure Compiled where
  source : String
  plan : Plan
  graph : Graph
  alloc : Graph.Allocation
  /-- The generation of the catalog the graph was expanded against. -/
  generation : Nat
  deriving Repr, Inhabited

inductive EngineError where
  | compile (error : CompileError)
  /-- The program has problems, and the engine is strict. -/
  | diagnosed (count : Nat)
  /-- The graph has errors, and the engine is strict. -/
  | expansion (text : String)
  | noProgram
  | render (error : RenderError)
  | override (error : OverrideError)
  deriving DecidableEq, Repr, Inhabited

namespace EngineError

def message : EngineError → String
  | .compile e => e.message
  | .diagnosed _ => "program has errors"
  | .expansion text => "graph expansion failed: " ++ text
  | .noProgram => "no program loaded"
  | .render e => e.message
  | .override e => e.message

/-- The details as named texts. -/
def attrs : EngineError → List (String × String)
  | .compile e => e.attrs
  | .diagnosed n => [("diagnostics", toString n)]
  | .expansion _ => []
  | .noProgram => []
  | .render e => e.attrs
  | .override e => e.attrs

end EngineError

/-- An engine over a backend. -/
structure Engine (β : Type) where
  library : Library
  exec : Executor β
  options : Options := {}
  /-- Programs with problems are refused. -/
  strict : Bool := false
  current : Option Compiled := none
  /-- The state of the frame before. -/
  clock : FrameState := {}
  mouse : Float × Float := (0, 0)
  deriving Repr, Inhabited

namespace Engine

variable {β : Type} [Backend β]

/-- Takes a program through planning, expansion and allocation. -/
def compile (e : Engine β) (source : String) (overrides : List Graph.ShaderOverride) :
    Except EngineError Compiled :=
  match Plan.compile (Bytes.ofString source) e.library.registry e.options with
  | .error err => .error (.compile err)
  | .ok plan =>
    if e.strict && hasErrors plan.diagnostics then .error (.diagnosed plan.diagnostics.length)
    else
      let graph := plan.expand e.library.catalog.lookup? overrides
      match e.strict, graph.errorText? with
      | true, some text => .error (.expansion text)
      | _, _ =>
        .ok { source, plan, graph, alloc := graph.allocate,
              generation := e.library.catalog.generation }

/-- The running program is the given one already. -/
def runs (e : Engine β) (c : Compiled) : Option Compiled :=
  e.current.filter fun old => old.plan.id = c.plan.id && old.generation = c.generation

/-- Makes a program the running one.  When it is running already, and no shader is
replaced, only its text is taken over. -/
def recompile (e : Engine β) (source : String) (overrides : List Graph.ShaderOverride := []) :
    Engine β × Except EngineError Compiled :=
  match e.compile source overrides with
  | .error err => (e, .error err)
  | .ok c =>
    match overrides.isEmpty, e.runs c with
    | true, some old =>
      let same := { old with source }
      ({ e with current := some same }, .ok same)
    | _, _ =>
      match e.exec.load c.graph (some c.alloc) with
      | (exec, some err) => ({ e with exec }, .error (.render err))
      | (exec, none) => ({ e with exec, current := some c }, .ok c)

/-- The source of the running program, with arguments replaced. -/
def source (e : Engine β) (overrides : Overrides) : Except EngineError String :=
  match e.current with
  | none => .error .noProgram
  | some c =>
    match c.plan.source e.library.registry overrides with
    | .ok text => .ok text
    | .error err => .error (.override err)

/-- Renders a frame with a state of its own. -/
def frame (e : Engine β) (state : FrameState) : Engine β × Option RenderError :=
  let (exec, r) := e.exec.frame state
  ({ e with exec }, r)

/-- A number of nanoseconds as seconds: whole seconds and the rest are converted
apart. -/
def seconds (ns : Int) : Float :=
  Number.ofInt (ns.tdiv 1000000000) + Number.ofInt (ns.tmod 1000000000) / 1000000000

/-- Moves the clock on by a number of nanoseconds and renders a frame.  The clock
stays when the frame fails. -/
def advance (e : Engine β) (ns : Int) : Engine β × Option RenderError :=
  let dt := seconds ns
  let state := { e.clock with
    deltaTime := dt
    time := e.clock.time + dt
    mouseX := e.mouse.1
    mouseY := e.mouse.2
    width := e.exec.width
    height := e.exec.height }
  match e.exec.frame state with
  | (exec, some err) => ({ e with exec }, some err)
  | (exec, none) => ({ e with exec, clock := { state with frame := state.frame + 1 } }, none)

def resize (e : Engine β) (width height : Int) : Engine β × Option RenderError :=
  let (exec, r) := e.exec.resize width height
  ({ e with exec }, r)

/-- Gives everything back to the backend. -/
def close (e : Engine β) : Engine β × Option RenderError :=
  let (exec, r) := e.exec.dispose
  ({ e with exec }, r)

end Engine

end EffectChain
