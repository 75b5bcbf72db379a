import EffectChain.Plan.Argument

/-!
# EffectChain.Plan.Lower

From statements to steps.

Lowering a part of a program gives the steps it adds and the problems it has, in
order; `base` is the number of steps before it.  A chain given as an argument is
lowered before the step that takes it, so its steps have smaller numbers.

Chains are lowered to a depth that no chain without a circular variable exceeds.
-/

namespace EffectChain

/-- The steps and the problems of a part of a program. -/
structure Emitted where
  steps : List Step := []
  problems : List Diagnostic := []
  /-- A variable stands for a chain that has it for an argument. -/
  circular : Bool := false
  deriving Repr, Inhabited

namespace Emitted

def append (a b : Emitted) : Emitted :=
  ⟨a.steps ++ b.steps, a.problems ++ b.problems, a.circular || b.circular⟩

instance : Append Emitted := ⟨append⟩

/-- Problems without steps. -/
def notes (ds : List Diagnostic) : Emitted := { problems := ds }

def note (p : Problem) (pos : Pos) : Emitted := notes [{ problem := p, pos }]

end Emitted

/-- Lowers a chain given as an argument after `base` steps; the result is the
number of its last step. -/
abbrev LowerChain := (base : Nat) → Chain → Emitted × Option Nat

/-- Everything the lowering of a statement depends on. -/
structure Surroundings where
  checker : Checker
  vars : Bindings := {}
  guards : List Dynamic := []
  loops : Nat := 0
  deriving Repr, Inhabited

namespace Surroundings

open Emitted

/-! ## calls -/

/-- A surface, or a chain whose result is one. -/
def surfaceArg (sub : LowerChain) (base : Nat) (a : ArgSpec) (e : Expr) : Emitted × Option Value :=
  let chain := fun (ch : Chain) =>
    let (out, last) := sub base ch
    (out, last.map fun t => Value.ref ⟨.temp, t⟩)
  let wrong := (notes (Checker.mismatch a e).2, none)
  match e with
  | .surface s _ => ({}, some (.ref s))
  | .string s _ =>
    match Surface.ofName? (Bytes.toString s) with
    | some s => ({}, some (.ref s))
    | none => wrong
  | .call c => chain { calls := [c], pos := c.pos }
  | .chain ch => chain ch
  | .ident name pos => (note (.unresolvedSurface name) pos, none)
  | _ => wrong

/-- The value of an argument that is written. -/
def argument (s : Surroundings) (sub : LowerChain) (base : Nat) (a : ArgSpec) (e : Expr) :
    Emitted × Option Value :=
  let e := s.vars.deref e
  let plain := fun (r : Noted (Option Value)) => (notes r.2, r.1)
  match a.type with
  | .surface => surfaceArg sub base a e
  | .float | .int => plain (s.checker.numberArg s.vars a e)
  | .boolean => plain (s.checker.boolArg s.vars a e)
  | .string =>
    match e with
    | .string t _ => ({}, some (.text t))
    | e => plain (Checker.mismatch a e)
  | .color | .vec3 | .vec4 => plain (Checker.vectorArg a e)
  | .member => plain (s.checker.memberArg a e)

/-- The positional arguments by name; one too many ends them. -/
def positional (canonical : String) (given : Table Expr) :
    List ArgSpec → List Expr → Table Expr × List Diagnostic
  | _, [] => (given, [])
  | [], e :: _ => (given, [{ problem := .tooManyArguments canonical, pos := e.pos }])
  | a :: as, e :: es => positional canonical (given.insert a.name e) as es

/-- The keyword arguments laid over the positional ones. -/
def keywords (k : Checker) (spec : OpSpec) (canonical : String) (given : Table Expr) :
    List Keyword → Table Expr × List Diagnostic
  | [] => (given, [])
  | kw :: kws =>
    if (spec.arg? kw.name).isSome then keywords k spec canonical (given.insert kw.name kw.value) kws
    else
      let (all, ds) := keywords k spec canonical given kws
      (all, k.suggesting (.unknownArgument kw.name canonical) kw.pos spec.argNames :: ds)

/-- The arguments of a call so far. -/
structure Arguments where
  out : Emitted := {}
  values : Table Value := {}
  explicit : List String := []
  deriving Inhabited

/-- Takes one argument: the value written for it, else its default. -/
def Arguments.take (s : Surroundings) (sub : LowerChain) (base : Nat) (given : Table Expr)
    (r : Arguments) (a : ArgSpec) : Arguments :=
  let omitted := fun (r : Arguments) =>
    match s.checker.defaultValue a with
    | some v => { r with values := r.values.insert a.name v }
    | none => r
  match given.get? a.name with
  | none => omitted r
  | some e =>
    match s.argument sub (base + r.out.steps.length) a e with
    | (out, some v) =>
      { out := r.out ++ out, values := r.values.insert a.name v,
        explicit := r.explicit ++ [a.name] }
    | (out, none) => omitted { r with out := r.out ++ out }

/-- The step of a call and the steps of its arguments before it; the step's
number comes with it. -/
def call (s : Surroundings) (sub : LowerChain) (base : Nat) (c : Call) (spec : OpSpec)
    (source : Option Nat) : Emitted × Nat :=
  let (given, ds) := positional spec.name {} spec.args c.args
  let (given, ds') := keywords s.checker spec spec.name given c.kwargs
  let r := spec.args.foldl (Arguments.take s sub base given) { out := notes (ds ++ ds') }
  let temp := base + r.out.steps.length
  let step : Step := {
    op := spec.name, args := r.values, explicit := r.explicit, source, temp, ns := c.ns,
    guards := s.guards, pos := c.pos }
  (r.out ++ { steps := [step] }, temp)

/-! ## chains -/

/-- The last names of all operations, each once. -/
def callNames (r : Registry) : List String :=
  ((r.namespaces.names ++ r.ops.names).map (Text.afterLast '.')).eraseDups

/-- The operation a call refers to. -/
def resolve? (r : Registry) (c : Call) : Option OpSpec :=
  let export? :=
    if c.ns.explicit then r.namespaces.lookup c.ns.name c.name
    else r.namespaces.resolve c.name (some c.ns.preferred)
  let name := (export?.map Export.canonical).getD c.qualifiedName
  (r.ops.lookup? name).map fun spec => { spec with name }

/-- How far a chain is lowered. -/
structure Progress where
  out : Emitted := {}
  /-- The last step. -/
  last : Option Nat := none
  /-- The operation of the first call that is known, if it begins chains. -/
  starter : Option String := none
  begun : Bool := false
  deriving Inhabited

/-- Lowers one more call of a chain. -/
def Progress.next (s : Surroundings) (sub : LowerChain) (base : Nat) (p : Progress) (c : Call) :
    Progress :=
  let r := s.checker.registry
  match resolve? r c with
  | none =>
    let d := s.checker.suggesting (.unknownOperation c.qualifiedName) c.pos (callNames r)
    { p with out := p.out ++ notes [d] }
  | some spec =>
    let starts := r.ops.isStarter spec.name
    let p := { p with
      begun := true
      starter := if p.begun then p.starter else if starts then some spec.name else none }
    if p.last.isNone && !starts && !r.ops.isPassthrough spec.name then
      { p with out := p.out ++ note (.needsInput c.qualifiedName spec.name) c.pos }
    else if p.last.isSome && starts then
      { p with out := p.out ++ note (.mustBegin c.qualifiedName spec.name) c.pos }
    else
      let (out, temp) := s.call sub (base + p.out.steps.length) c spec p.last
      { p with out := p.out ++ out, last := some temp }

/-- The surface a chain is written to. -/
def outTarget (vars : Bindings) (e : Expr) : Noted (Option Surface) :=
  match vars.deref e with
  | .surface x pos =>
    if x.kind = .output || x.kind = .feedback then Checker.accepted x
    else Checker.refused (.outNotWritable x) pos
  | .ident name pos => Checker.refused (.unresolvedSurface name) pos
  | _ => Checker.refused .outNotSurface e.pos

/-- The steps with the output of the step numbered `temp` set. -/
def setOut (temp : Nat) (o : Surface) (steps : List Step) : List Step :=
  steps.map fun st => if st.temp = temp then { st with out := some o } else st

/-- Lowers a chain; one that begins with an image and is no argument has to be
written somewhere. -/
def chainWith (s : Surroundings) (sub : LowerChain) (isArgument : Bool) (base : Nat) (ch : Chain) :
    Emitted × Option Nat :=
  let (calls, ds) := s.vars.expandChain ch
  let p := calls.foldl (Progress.next s sub base) { out := notes ds }
  match p.last with
  | none => (p.out, none)
  | some last =>
    match ch.out with
    | some e =>
      match outTarget s.vars e with
      | (some o, ds) => ({ p.out with steps := setOut last o p.out.steps } ++ notes ds, some last)
      | (none, ds) => (p.out ++ notes ds, some last)
    | none =>
      match p.starter with
      | some op =>
        if isArgument then (p.out, some last)
        else (p.out ++ note (.chainWithoutOut op) ch.pos, some last)
      | none => (p.out, some last)

/-- Lowers a chain whose arguments are nested to at most the given depth. -/
def subchain (s : Surroundings) : (depth : Nat) → LowerChain
  | 0 => fun _ _ => ({ circular := true }, none)
  | depth + 1 => s.chainWith (s.subchain depth) true

/-- A depth that no nesting of arguments exceeds, unless a variable is circular:
on the way down every expression is a part of the one before it, or of what a
variable that was not met before stands for. -/
def depthBound (vars : Bindings) (ch : Chain) : Nat :=
  vars.values.foldl (fun n e => n + e.size) (1 + (Expr.chain ch).size)

/-- Lowers a chain statement. -/
def chain (s : Surroundings) (base : Nat) (ch : Chain) : Emitted :=
  (s.chainWith (s.subchain (depthBound s.vars ch)) false base ch).1

end Surroundings

/-! ## statements -/

/-- How a block is left. -/
inductive Flow where
  | onward
  | leaveLoop
  | nextRound
  | finish
  deriving DecidableEq, Repr, Inhabited

/-- What a statement comes to: its steps, the variables after it, and how it is
left. -/
structure Lowered where
  out : Emitted := {}
  vars : Bindings := {}
  flow : Flow := .onward
  deriving Inhabited

namespace Surroundings

open Emitted

/-- How often a loop runs: a count, and perhaps a factor that is computed in every
frame. -/
def loopCount (s : Surroundings) (count : Option Expr) (pos : Pos) :
    Noted (Option (Nat × Option Dynamic)) :=
  match count with
  | none => (some (1, none), [])
  | some e =>
    match s.checker.scalar s.vars e none none "loop count" with
    | (some (.scalar x), ds) =>
      let n := Number.round x
      if n.isNaN || n <= 0 then (some (0, none), ds)
      else if n > Number.ofInt maxRepeat then
        (some (maxRepeat, none), ds ++ [{ problem := .loopTooLong x, pos }])
      else (some ((Number.integerPart n).toNat, none), ds)
    | (some (.dynamic d), ds) => (some (1, some d), ds)
    | (some (.boolean _), ds) => (none, ds ++ [{ problem := .loopNotNumeric, pos }])
    | (_, ds) => (none, ds)

/-- A step of a loop's body, which runs in every round; whether its count reached
the limit, and whether its own factor stands in the way of the loop's. -/
def repeated (count : Nat) (factor : Option Dynamic) (st : Step) : Step × Bool × Bool :=
  let (n, capped) := Repeat.times st.repetition.count count
  match factor, st.repetition.factor with
  | some d, none => ({ st with repetition := ⟨n, some d⟩ }, capped, false)
  | some _, some d => ({ st with repetition := ⟨n, some d⟩ }, capped, true)
  | none, f => ({ st with repetition := ⟨n, f⟩ }, capped, false)

/-- A loop's body with every step repeated. -/
def repeatBody (count : Nat) (factor : Option Dynamic) (pos : Pos) (body : Emitted) : Emitted :=
  let rs := body.steps.map (repeated count factor)
  { body with steps := rs.map (·.1) } ++
    notes ((rs.filter (·.2.2)).map fun _ => { problem := .nestedDynamicLoops, pos }) ++
    notes (if rs.any (·.2.1) then [{ problem := .loopsTooLong, pos }] else [])

/-- An arm that is taken when no arm before it was; only one that is taken in
every frame leaves the block around the conditional. -/
def after (before : Emitted) (negated : List Dynamic) (r : Lowered) : Lowered :=
  { out := before ++ r.out, vars := r.vars, flow := if negated.isEmpty then r.flow else .onward }

mutual

/-- Lowers a statement after `base` steps. -/
def stmt (s : Surroundings) (base : Nat) : Stmt → Lowered
  | .bind name value _ =>
    let (vars, ds) := s.vars.bind name value
    { out := notes ds, vars }
  | .run ch _ => { out := s.chain base ch, vars := s.vars }
  | .choose arms none _ =>
    s.branches base [] {} (fun s _ before => { out := before, vars := s.vars }) arms
  | .choose arms (some body) _ =>
    s.branches base [] {} (fun s negated before =>
      after before negated
        (block { s with guards := s.guards ++ negated } (base + before.steps.length) body)) arms
  | .repeated count body pos =>
    match s.loopCount count pos with
    | (none, ds) => { out := notes ds, vars := s.vars }
    | (some (0, _), ds) => { out := notes ds ++ note .loopNeverRuns pos, vars := s.vars }
    | (some (n, factor), ds) =>
      let r := block { s with loops := s.loops + 1 } base body
      match r.flow with
      | .leaveLoop => { out := notes ds ++ r.out, vars := r.vars }
      | .finish => { out := notes ds ++ r.out, vars := r.vars, flow := .finish }
      | _ => { out := notes ds ++ repeatBody n factor pos r.out, vars := r.vars }
  | .leaveLoop pos =>
    if s.loops = 0 then { out := note (.flowOutsideLoop "break") pos, vars := s.vars }
    else { vars := s.vars, flow := .leaveLoop }
  | .nextRound pos =>
    if s.loops = 0 then { out := note (.flowOutsideLoop "continue") pos, vars := s.vars }
    else { vars := s.vars, flow := .nextRound }
  | .finish _ => { vars := s.vars, flow := .finish }

/-- Lowers statements up to the first that leaves the block. -/
def block (s : Surroundings) (base : Nat) : List Stmt → Lowered
  | [] => { vars := s.vars }
  | st :: rest =>
    let r := s.stmt base st
    if r.flow = .onward then
      let more := block { s with vars := r.vars } (base + r.out.steps.length) rest
      { more with out := r.out ++ more.out }
    else { r with out := r.out ++
                    notes (rest.map fun x => { problem := .unreachable, pos := x.pos }) }

/-- Lowers the arms of a conditional that are left; `negated` says that no arm
before them was taken, `before` is what those came to, and `otherwise` is what
happens when none is taken. -/
def branches (s : Surroundings) (base : Nat) (negated : List Dynamic) (before : Emitted)
    (otherwise : Surroundings → List Dynamic → Emitted → Lowered) : List Branch → Lowered
  | [] => otherwise s negated before
  | ⟨cond, body, _⟩ :: rest =>
    match s.checker.scalar s.vars cond none none "condition" with
    | (none, ds) => branches s base negated (before ++ notes ds) otherwise rest
    | (some (.dynamic d), ds) =>
      let before := before ++ notes ds
      let r := block { s with guards := s.guards ++ negated ++ [d] }
        (base + before.steps.length) body
      branches { s with vars := r.vars } base (negated ++ [d.not]) (before ++ r.out) otherwise rest
    | (some v, ds) =>
      let before := before ++ notes ds
      if (v.eval {}).truthy then
        after before negated
          (block { s with guards := s.guards ++ negated } (base + before.steps.length) body)
      else branches s base negated before otherwise rest

end

end Surroundings

/-! ## programs -/

/-- Why a program cannot be planned. -/
inductive PlanError where
  | noProgram
  | noSearch
  | circularVariable
  deriving DecidableEq, Repr, Inhabited

namespace PlanError

def message : PlanError → String
  | .noProgram => "nil program"
  | .noSearch => "missing search directive"
  | .circularVariable => "circular variable"

def attrs : PlanError → List (String × String)
  | .noSearch => [("hint", "begin the program with a search directive")]
  | _ => []

end PlanError

/-- Plans a program against a registry. -/
def Program.plan (p : Program) (registry : Registry) (options : Options) : Except PlanError Plan :=
  if p.search.isEmpty then .error .noSearch
  else
    let r := Surroundings.block { checker := { registry, suggest := options.suggest } } 0
      p.statements
    if r.out.circular then .error .circularVariable
    else .ok {
      steps := r.out.steps, diagnostics := r.out.problems, render := p.render.map (·.1),
      search := p.search }

/-- Why a source cannot be compiled. -/
inductive CompileError where
  | notParsed (error : SyntaxError)
  | notPlanned (error : PlanError)
  deriving DecidableEq, Repr, Inhabited

namespace CompileError

def message : CompileError → String
  | .notParsed e => e.message
  | .notPlanned e => e.message

/-- The details as named texts. -/
def attrs : CompileError → List (String × String)
  | .notParsed _ => []
  | .notPlanned e => e.attrs

end CompileError

/-- Reads and plans a source. -/
def Plan.compile (source : Bytes) (registry : Registry) (options : Options) :
    Except CompileError Plan :=
  match Program.parse options source with
  | .error e => .error (.notParsed e)
  | .ok p =>
    match p.plan registry options with
    | .error e => .error (.notPlanned e)
    | .ok p => .ok p

end EffectChain
