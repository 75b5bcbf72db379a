import EffectChain.Graph.Basic
import EffectChain.Render.Backend

/-!
# EffectChain.Render.Condition

The conditions of passes: whether and how often a pass runs in a frame, as
expressions over the state of the frame and the uniforms of the pass.
-/

namespace EffectChain

/-- An expression over the values of a frame. -/
structure Condition where
  source : String
  formula : Formula
  deriving Repr, Inhabited

namespace Condition

/-- Reads a condition; an empty text is none.  Names that have no value are
allowed, they stand for nothing. -/
def read (pass field source : String) : Except RenderError (Option Condition) :=
  if source = "" then .ok none
  else match Formula.compile? Formula.anyScope source with
    | some f => .ok (some ⟨source, f⟩)
    | none => .error (.badCondition pass field source)

def eval (c : Condition) (env : Env) : Except RenderError Datum :=
  match c.formula.eval env with
  | some d => .ok d
  | none => .error (.failedCondition c.source)

/-- The value as a number of runs, rounded; less than nothing is none. -/
def count (c : Condition) (env : Env) : Except RenderError Int :=
  (c.eval env).map fun d =>
    let x := d.number?.getD 0
    if x < 0 || x.isNaN then 0 else Number.toInt64 (Number.round x)

end Condition

/-- A pass with its conditions read. -/
structure LoadedPass where
  pass : Graph.Pass
  skip : Option Condition := none
  run : Option Condition := none
  count : Option Condition := none
  deriving Repr, Inhabited

namespace LoadedPass

def read (p : Graph.Pass) : Except RenderError LoadedPass := do
  let skip ← Condition.read p.id "skipIf" p.skipIf
  let run ← Condition.read p.id "runIf" p.runIf
  let count ← Condition.read p.id "repeat" p.count
  return { pass := p, skip, run, count }

/-- How often the pass runs. -/
def times (p : LoadedPass) (env : Env) : Except RenderError Int := do
  let skips ← match p.skip with
    | some c => (c.eval env).map Datum.truthy
    | none => .ok false
  if skips then return 0
  let runs ← match p.run with
    | some c => (c.eval env).map Datum.truthy
    | none => .ok true
  if !runs then return 0
  match p.count with
  | some c => c.count env
  | none => return 1

end LoadedPass

end EffectChain
