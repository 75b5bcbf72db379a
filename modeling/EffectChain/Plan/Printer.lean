import EffectChain.Data.Table
import EffectChain.Document.Read
import EffectChain.Number.Whole
import EffectChain.Plan.Basic
import EffectChain.Registry.Operations
import EffectChain.Text.Basic

/-!
# EffectChain.Plan.Printer

Plans as source text, with some values given from outside the program, as
`step.argument` pairs written `0.scale=0.5`.  Every chain is written with keyword
arguments, and only with those that were written in the program or are overridden.
-/

namespace EffectChain

/-- Values by step and argument. -/
structure Overrides where
  steps : List (Int × Table Document) := []
  deriving Repr, Inhabited

namespace Overrides

/-- The values given to a step. -/
def ofStep (o : Overrides) (step : Int) : Table Document := (o.steps.lookup step).getD {}

def get? (o : Overrides) (step : Int) (param : String) : Option Document :=
  (o.ofStep step).get? param

/-- The overrides with one value set. -/
def set (o : Overrides) (step : Int) (param : String) (value : Document) : Overrides :=
  ⟨(step, (o.ofStep step).insert param value) :: o.steps.filter (·.1 ≠ step)⟩

def isEmpty (o : Overrides) : Bool := o.steps.isEmpty

/-- One pair: everything before the first `=` names the step and the argument,
the rest is the value.  A hex color is taken as it is, other values are read as
documents, and a null value stands for its own text. -/
def pair? (s : String) : Option (Int × String × Document) := do
  let (key, text) ← Text.cut? '=' s
  let text := Text.trimSpace text
  let (index, param) ← Text.cut? '.' (Text.trimSpace key)
  let step ← Number.whole? index
  if text = "" || param = "" || step < 0 then none
  else if text.startsWith "#" then some (step, param, .text text)
  else match ← Document.read? text with
    | .null => some (step, param, .text text)
    | d => some (step, param, d)

/-- The overrides of a list of pairs, or the first pair that is none. -/
def parse (sets : List String) : Except String Overrides :=
  sets.foldlM (fun o s =>
    match pair? s with
    | some (step, param, value) => .ok (o.set step param value)
    | none => .error s) {}

end Overrides

/-- Why overrides do not fit a plan. -/
inductive OverrideError where
  | unknownStep (step : Int)
  | unknownParam (step : Int) (param : String)
  deriving DecidableEq, Repr, Inhabited

namespace OverrideError

def message : OverrideError → String
  | .unknownStep _ => "override references unknown step"
  | .unknownParam .. => "override references unknown parameter"

def attrs : OverrideError → List (String × String)
  | .unknownStep n => [("step", toString n)]
  | .unknownParam n p => [("step", toString n), ("param", p)]

end OverrideError

/-- A changing value in place of an argument, a condition or a count. -/
def Dynamic.sourceText (d : Dynamic) : String :=
  match d.signal, d.negated with
  | .state field, false => field
  | .oscillator _, false => d.text
  | _, _ => "() => " ++ d.formula

/-- A plan with what is needed to write it. -/
structure Printer where
  plan : Plan
  registry : Registry := {}
  overrides : Overrides := {}
  deriving Repr, Inhabited

namespace Printer

/-- The first override that does not fit. -/
def refusal? (u : Printer) : Option OverrideError :=
  (u.overrides.steps.mergeSort fun a b => a.1 ≤ b.1).findSome? fun (step, params) =>
    match if step < 0 then none else u.plan.steps[step.toNat]? with
    | none => some (.unknownStep step)
    | some st =>
      match u.registry.ops.lookup? st.op with
      | none => none
      | some spec =>
        (params.keys.find? fun k => (spec.arg? k).isNone).map fun k => .unknownParam step k

/-! ## calls -/

/-- The name of an operation; the namespace is left out when the bare name means
the same operation. -/
def opName (u : Printer) (op : String) : String :=
  match Text.cutLast? '.' op with
  | none => op
  | some (space, bare) =>
    if u.plan.search.contains space &&
        (u.registry.namespaces.resolve bare (some u.plan.search)).any (·.canonical = op) then bare
    else op

/-- The name of a constant; one that reads as something else does not count. -/
def memberName? (u : Printer) (a : ArgSpec) (x : Float) : Option String :=
  let choice := (a.choices.entries.find? fun (k, v) => v == x && !isKeyword k).map (·.1)
  let constant := if a.enum = "" then none
    else ((u.registry.enums.find? (Text.splitChar '.' a.enum)).bind (·.reverse? x)).filter
      fun n => !isKeyword n && !isStateField n
  choice.or constant

/-- The value of an argument; `chain` writes the chain that ends at a step. -/
def valueText (u : Printer) (chain : Nat → String) (a : ArgSpec) (v : Value) : String :=
  match v with
  | .scalar x =>
    let name := if a.type = .member || a.enum ≠ "" || !a.choices.isEmpty then u.memberName? a x
      else none
    name.getD (Number.brief x)
  | .ref s => if s.kind = .temp then chain s.index else s.name
  | .dynamic d => d.sourceText
  | v => v.shown

/-- An overridden value; names of constants, surfaces and hex colors are written
as they are given. -/
def overrideText (u : Printer) (chain : Nat → String) (a : ArgSpec) (d : Document) : String :=
  let plain := fun (_ : Unit) => ((Value.ofDocument? d).map (u.valueText chain a)).getD "0"
  match d with
  | .text s =>
    match a.type with
    | .member => s
    | .surface => ((Surface.ofName? s).map Surface.name).getD (plain ())
    | .color | .vec3 | .vec4 => if s.startsWith "#" then s else plain ()
    | _ => plain ()
  | _ => plain ()

/-- An argument, if it is to be written. -/
def argText? (u : Printer) (chain : Nat → String) (st : Step) (a : ArgSpec) : Option String :=
  match u.overrides.get? st.temp a.name with
  | some d => some (a.name ++ ": " ++ u.overrideText chain a d)
  | none =>
    if st.explicit.contains a.name then
      (st.args.get? a.name).map fun v => a.name ++ ": " ++ u.valueText chain a v
    else none

/-- The arguments of a step in order; those of an unknown operation by name. -/
def argSpecs (u : Printer) (st : Step) : List ArgSpec :=
  match u.registry.ops.lookup? st.op with
  | some spec => spec.args
  | none => st.args.keys.map fun name => { name }

def callText (u : Printer) (chain : Nat → String) (st : Step) : String :=
  u.opName st.op ++ "(" ++ ", ".intercalate ((u.argSpecs st).filterMap (u.argText? chain st)) ++ ")"

/-! ## chains -/

/-- The steps of a chain that ends at a step, the last one first; there are not
more of them than `limit`. -/
def backwards (p : Plan) : (limit : Nat) → (temp : Nat) → List Step
  | 0, _ => []
  | limit + 1, temp =>
    match p.steps[temp]? with
    | none => []
    | some st =>
      st :: match st.source with
        | some from' => backwards p limit from'
        | none => []

/-- The chain that ends at a step.  Chains in its arguments end at earlier steps,
so they are nested less deeply than the plan has steps. -/
def chainText (u : Printer) : (depth : Nat) → (temp : Nat) → String
  | 0, _ => ""
  | depth + 1, temp =>
    let steps := backwards u.plan (u.plan.steps.length + 1) temp
    ".".intercalate (steps.reverse.map (u.callText (chainText u depth))) ++
      match (steps.head?).bind (·.out) with
      | some o => ".out(" ++ o.name ++ ")"
      | none => ""

/-! ## blocks -/

/-- The blocks around a step: one for each guard, then the loops. -/
def headers (st : Step) : List String :=
  st.guards.map (fun g => "if " ++ g.sourceText) ++
    if st.repetition.isOnce then []
    else
      let counted := "loop " ++ Number.plain (Number.ofInt st.repetition.count)
      match st.repetition.factor with
      | none => [counted]
      | some d =>
        if st.repetition.count > 1 then [counted, "loop " ++ d.sourceText]
        else ["loop " ++ d.sourceText]

def indent (n : Nat) : String := String.join (List.replicate n "  ")

/-- The lines that close `n` blocks. -/
def closers (n : Nat) : List String := (List.range n).reverse.map fun i => indent i ++ "\x7d\n"

/-- The lines that open blocks. -/
def openers (hs : List String) : List String :=
  hs.zipIdx.map fun (h, i) => indent i ++ h ++ " \x7b\n"

/-- The steps that are the input or an argument of another one. -/
def consumed (p : Plan) : List Nat :=
  p.steps.flatMap fun st =>
    st.source.toList ++ st.args.values.filterMap fun v =>
      match v with
      | .ref s => if s.kind = .temp then some s.index else none
      | _ => none

/-- The lines of the steps that end chains, in the blocks around them; steps that
follow each other share their blocks. -/
def body (u : Printer) (open_ : List String) : List Step → List String
  | [] => closers open_.length
  | st :: rest =>
    let hs := headers st
    let line := indent hs.length ++ u.chainText (u.plan.steps.length + 1) st.temp ++ "\n"
    if hs = open_ then line :: u.body open_ rest
    else closers open_.length ++ openers hs ++ line :: u.body hs rest

/-- The source of a plan. -/
def text (u : Printer) : String :=
  let used := consumed u.plan
  "search " ++ ", ".intercalate u.plan.search ++ "\n" ++
    String.join (u.body [] (u.plan.steps.filter fun st => !used.contains st.temp)) ++
    match u.plan.render with
    | some s => "render(" ++ s.name ++ ")\n"
    | none => ""

end Printer

/-- The source of a plan with some values overridden. -/
def Plan.source (p : Plan) (registry : Registry) (overrides : Overrides) :
    Except OverrideError String :=
  let u : Printer := { plan := p, registry, overrides }
  match u.refusal? with
  | some e => .error e
  | none => .ok u.text

end EffectChain
