import EffectChain.Hash.Fingerprint
import EffectChain.Plan.Diagnostic
import EffectChain.Value.Basic

/-!
# EffectChain.Plan.Basic

Planned programs: steps in the order they run, each one call with all its
arguments.  The canonical text of a plan says all that matters to running it; the
plan's identifier is the fingerprint of that text.
-/

namespace EffectChain

/-- How often a step runs in a frame. -/
structure Repeat where
  count : Int := 1
  factor : Option Dynamic := none
  deriving Repr, Inhabited

namespace Repeat

/-- A product of counts that stops at the limit, and whether it had to. -/
def times (a b : Int) : Int × Bool :=
  if a ≤ 0 || b ≤ 0 then (0, false)
  else if a > (maxRepeat : Int) / b then (maxRepeat, true)
  else (a * b, false)

/-- A number as a count between zero and the limit. -/
def countOf (x : Float) : Int :=
  if x.isNaN || x < 0 then 0
  else if x > Number.ofInt maxRepeat then maxRepeat
  else Number.integerPart x

/-- How often the step runs in a frame; a count of zero stands for one. -/
def inFrame (r : Repeat) (env : Env) : Int :=
  let n := if r.count = 0 then 1 else r.count
  let n := match r.factor with
    | some d => (times n (countOf ((d.eval env).number?.getD 0))).1
    | none => n
  min n maxRepeat

/-- The step runs once in every frame. -/
def isOnce (r : Repeat) : Bool := (r.count = 0 || r.count = 1) && r.factor.isNone

end Repeat

/-- One call with all its arguments. -/
structure Step where
  /-- The canonical name of the operation. -/
  op : String
  args : Table Value := {}
  /-- The arguments that were written in the program. -/
  explicit : List String := []
  /-- The step whose result is the input. -/
  source : Option Nat := none
  /-- The number of the step, which is its place in the plan. -/
  temp : Nat := 0
  ns : NamespaceRef := {}
  /-- The surface the result is written to. -/
  out : Option Surface := none
  /-- The step runs when all of these hold. -/
  guards : List Dynamic := []
  repetition : Repeat := {}
  pos : Pos := {}
  deriving Repr, Inhabited

/-- A checked program. -/
structure Plan where
  steps : List Step := []
  diagnostics : List Diagnostic := []
  render : Option Surface := none
  search : List String := []
  deriving Repr, Inhabited

namespace Step

/-- The number of the input step as text, minus one when there is none. -/
def sourceText (s : Step) : String :=
  match s.source with
  | some n => toString n
  | none => "-1"

/-- The line of a step in the canonical text. -/
def canonical (s : Step) : String :=
  toString s.temp ++ " " ++ s.op ++ " from=" ++ s.sourceText ++
    String.join (s.args.entries.map fun (k, v) => " " ++ k ++ "=" ++ v.shown) ++
    (match s.out with
      | some o => " out=" ++ o.name
      | none => "") ++
    (if s.repetition.isOnce then ""
     else " repeat=" ++ toString s.repetition.count ++
      (match s.repetition.factor with
        | some d => "*" ++ d.text
        | none => "")) ++
    String.join (s.guards.map fun g => " if=" ++ g.text) ++ "\n"

end Step

namespace Plan

/-- The surface that is written last. -/
def lastWritten (p : Plan) : Option Surface := p.steps.reverse.findSome? (·.out)

/-- The surface that is shown: the one the program names, else the one written
last, else the first output. -/
def renderSurface (p : Plan) : Surface := (p.render.or p.lastWritten).getD {}

/-- All that matters to running the plan. -/
def canonical (p : Plan) : String :=
  "search " ++ ",".intercalate p.search ++ "\n" ++ String.join (p.steps.map Step.canonical) ++
    (match p.render with
      | some s => "render " ++ s.name ++ "\n"
      | none => "")

def id (p : Plan) : String := Hash.fingerprint (Bytes.ofString p.canonical)

end Plan

end EffectChain
