import EffectChain.Formula.Eval
import EffectChain.Number.Format

/-!
# EffectChain.Value.Dynamic

The state of a frame and the names it gives values to, and the values that are computed anew in
every frame: closures, fields of the state and oscillators, perhaps with bounds or negated.  An
oscillator is a wave between two numbers.
-/

namespace EffectChain

/-! ## the state of a frame -/

/-- What a frame is computed from. -/
structure FrameState where
  time : Float := 0
  deltaTime : Float := 0
  frame : Int := 0
  mouseX : Float := 0
  mouseY : Float := 0
  seed : Float := 0
  width : Int := 0
  height : Int := 0
  deriving Repr, Inhabited

/-- The names that read the state of the frame. -/
def stateFields : List String :=
  ["time", "deltaTime", "frame", "mouseX", "mouseY", "seed", "width", "height"]

def isStateField (name : String) : Bool := stateFields.contains name

/-- The ratio of a circle's circumference to its diameter. -/
def circleRatio : Float := 3.141592653589793

/-- The names that mean the same in every frame. -/
def Env.constants : Env :=
  Function.all.foldl (fun env f => env.insert f.name (.function f))
    (Table.empty.insert "PI" (.float circleRatio))

/-- The values of names in a frame; all numbers are floats. -/
def FrameState.env (s : FrameState) : Env :=
  [("time", s.time), ("deltaTime", s.deltaTime), ("frame", Number.ofInt s.frame),
   ("mouseX", s.mouseX), ("mouseY", s.mouseY), ("seed", s.seed), ("width", Number.ofInt s.width),
   ("height", Number.ofInt s.height)].foldl (fun env (k, x) => env.insert k (.float x))
     Env.constants

/-- The kinds of the names a closure may use. -/
def closureScope (name : String) : Option Formula.Kind :=
  if isStateField name || name = "PI" then some .float
  else (Function.all.find? (·.name = name)).map .function

/-! ## changing values -/

/-- The shape of a wave; an unknown one is flat. -/
inductive Wave where
  | sine
  | triangle
  | saw
  | square
  | unknown (name : String)
  deriving DecidableEq, Repr, Inhabited

namespace Wave

def name : Wave → String
  | .sine => "sine"
  | .triangle => "tri"
  | .saw => "saw"
  | .square => "square"
  | .unknown n => n

def all : List Wave := [.sine, .triangle, .saw, .square]

def ofName? (name : String) : Option Wave := all.find? (·.name = name)

def ofName (name : String) : Wave := (ofName? name).getD (.unknown name)

/-- The height of the wave between zero and one. -/
def height (w : Wave) (phase : Float) : Float :=
  let part := phase - phase.floor
  match w with
  | .sine => 0.5 + 0.5 * (2 * circleRatio * phase).sin
  | .triangle => 1 - (2 * part - 1).abs
  | .saw => part
  | .square => if part < 0.5 then 1 else 0
  | .unknown _ => 0

/-- The height as a formula of the phase. -/
def formula (w : Wave) (phase : String) : String :=
  match w with
  | .sine => "(0.5 + 0.5 * sin(2 * PI * " ++ phase ++ "))"
  | .triangle => "(1 - abs(2 * fract" ++ phase ++ " - 1))"
  | .saw => "fract" ++ phase
  | .square => "(fract" ++ phase ++ " < 0.5 ? 1 : 0)"
  | .unknown _ => ""

end Wave

/-- A value that moves between `min` and `max` in the shape of a wave. -/
structure Oscillator where
  wave : Wave := .sine
  min : Float := 0
  max : Float := 1
  speed : Float := 1
  offset : Float := 0
  deriving Repr, Inhabited

namespace Oscillator

/-- The value at a time. -/
def at' (o : Oscillator) (t : Float) : Float :=
  o.min + (o.max - o.min) * o.wave.height (t * o.speed + o.offset)

/-- The value as a formula of the time. -/
def formula (o : Oscillator) : String :=
  Number.plain o.min ++ " + " ++ Number.plain (o.max - o.min) ++ " * " ++
    o.wave.formula ("(time * " ++ Number.plain o.speed ++ " + " ++ Number.plain o.offset ++ ")")

end Oscillator

namespace Number

/-- A number rounded to six places. -/
def round6 (x : Float) : Float := round (x * 1000000) / 1000000

/-- A number with six places at most. -/
def brief (x : Float) : String := plain (round6 x)

end Number

/-- What a changing value is computed from. -/
inductive Signal where
  | closure (source : String) (formula : Formula)
  | state (field : String)
  | oscillator (value : Oscillator)
  deriving Repr, Inhabited

/-- A value that is computed in every frame. -/
structure Dynamic where
  signal : Signal
  /-- Numbers are not less than this. -/
  min : Option Float := none
  /-- Numbers are not greater than this. -/
  max : Option Float := none
  /-- The truth value is inverted. -/
  negated : Bool := false
  deriving Repr, Inhabited

namespace Dynamic

/-- The closure with the given body.  A `Math.` before a name does not count. -/
def closure? (source : String) : Option Dynamic :=
  (Formula.compile? closureScope (source.replace "Math." "")).map fun f =>
    ⟨.closure source f, none, none, false⟩

def ofState (field : String) : Dynamic := { signal := .state field }

def ofOscillator (o : Oscillator) : Dynamic := { signal := .oscillator o }

def not (d : Dynamic) : Dynamic := { d with negated := !d.negated }

def bounded (d : Dynamic) (min max : Option Float) : Dynamic := { d with min, max }

/-- The value before bounds and negation. -/
def raw? (d : Dynamic) (env : Env) : Option Datum :=
  match d.signal with
  | .closure _ f => f.eval env
  | .state field => some (env.getD field .null)
  | .oscillator o => some (.float (o.at' (((env.get? "time").bind Datum.number?).getD 0)))

/-- A number moved between the bounds. -/
def bound (d : Dynamic) (x : Float) : Float :=
  let x := match d.min with
    | some lo => if x < lo then lo else x
    | none => x
  match d.max with
  | some hi => if x > hi then hi else x
  | none => x

/-- The value in a frame; `none` when the closure fails. -/
def run? (d : Dynamic) (env : Env) : Option Datum :=
  (d.raw? env).map fun out =>
    if d.negated then .bool (!out.truthy)
    else match out with
      | .bool b => .bool b
      | out =>
        match out.number? with
        | some x => .float (d.bound x)
        | none => out

/-- The value in a frame, null when the closure fails. -/
def eval (d : Dynamic) (env : Env) : Datum := (d.run? env).getD .null

/-- The body, the field or the wave. -/
def source (d : Dynamic) : String :=
  match d.signal with
  | .closure s _ => s
  | .state f => f
  | .oscillator o => o.wave.name

/-- The value as programs and listings write it. -/
def text (d : Dynamic) : String :=
  let s := match d.signal with
    | .closure s _ => "() => " ++ s
    | .state f => f
    | .oscillator o =>
      o.wave.name ++ "(min: " ++ Number.brief o.min ++ ", max: " ++ Number.brief o.max ++
        ", speed: " ++ Number.brief o.speed ++ ", offset: " ++ Number.brief o.offset ++ ")"
  if d.negated then "!(" ++ s ++ ")" else s

/-- The value as the body of a closure. -/
def formula (d : Dynamic) : String :=
  let s := match d.signal with
    | .closure s _ => s
    | .state f => f
    | .oscillator o => o.formula
  if d.negated then "!truthy(" ++ s ++ ")" else s

end Dynamic

end EffectChain
