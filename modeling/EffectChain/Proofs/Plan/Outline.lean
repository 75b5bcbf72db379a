import EffectChain.Plan.Lower

/-!
# EffectChain.Proofs.Plan.Outline

What a program does in a frame, said without a plan: its statements run one after
the other, a conditional takes the first arm whose condition holds, a loop runs
its body as often as its count says, and `break`, `continue` and `return` leave
what they stand in.  The outcome of a run is its *tally*: how often each chain
statement ran, in the order of the text.  Variables are bound when the run comes to
the binding.

What is left of a program when everything that is known before the first frame is
decided: conditions and counts that are constants, and what `break`, `continue`
and `return` cut off.  The outline of a program has no variables and no jumps; a
chain statement in it is idle, or it runs whenever the frame comes to it.

A survey reads the outline off the statements.  On the way it notes two things
that a frame could not be told in advance: a jump that stands where only the frame
decides whether it is reached, and a condition or count that reads a *loose*
variable, one whose value depends on the frame or on the round of a loop.
-/

namespace EffectChain

/-! ## chain statements -/

mutual

/-- The chain statements of a statement, in the order of the text. -/
def Stmt.chains : Stmt → List Chain
  | .bind .. => []
  | .run ch _ => [ch]
  | .choose arms none _ => Stmt.chainsOfArms arms
  | .choose arms (some body) _ => Stmt.chainsOfArms arms ++ Stmt.chainsOf body
  | .repeated _ body _ => Stmt.chainsOf body
  | .leaveLoop _ => []
  | .nextRound _ => []
  | .finish _ => []

/-- The chain statements of a block. -/
def Stmt.chainsOf : List Stmt → List Chain
  | [] => []
  | st :: rest => st.chains ++ Stmt.chainsOf rest

/-- The chain statements of the arms of a conditional. -/
def Stmt.chainsOfArms : List Branch → List Chain
  | [] => []
  | ⟨_, body, _⟩ :: rest => Stmt.chainsOf body ++ Stmt.chainsOfArms rest

end

/-- The tally of chain statements that do not run. -/
def idleTally (chains : List Chain) : List Nat := chains.map fun _ => 0

/-! ## conditions and counts -/

namespace Bindings

/-- The value of a condition or a count. -/
def scalar? (vars : Bindings) (e : Expr) : Option Value :=
  (({} : Checker).scalar vars e none none "").1

/-- Whether a condition holds in a frame. -/
def holds (vars : Bindings) (env : Env) (cond : Expr) : Bool :=
  ((vars.scalar? cond).map fun v => (v.eval env).truthy).getD false

end Bindings

/-- A count that is written as a number, to the nearest whole one. -/
def roundedCount (x : Float) : Nat :=
  if (Number.round x).isNaN || Number.round x <= 0 then 0
    else (Number.integerPart (Number.round x)).toNat

/-- A count that is computed in a frame, cut to a whole number of rounds. -/
def Dynamic.countIn (d : Dynamic) (env : Env) : Nat :=
  (Repeat.countOf ((d.eval env).number?.getD 0)).toNat

/-- How often a loop runs its body in a frame. -/
def Bindings.rounds (vars : Bindings) (env : Env) : Option Expr → Nat
  | none => 1
  | some e =>
    match vars.scalar? e with
    | some (.scalar x) => roundedCount x
    | some (.dynamic d) => d.countIn env
    | _ => 0

/-! ## runs -/

/-- What a run comes to: the variables after it, the tally, and how it is left. -/
structure Course where
  vars : Bindings
  tally : List Nat
  flow : Flow := .onward
  deriving Inhabited

/-- Runs a loop's body the given number of times; `skipped` is the body's tally
when it does not run. -/
def Course.rounds (body : Bindings → Course) (skipped : List Nat) : Nat → Bindings → Course
  | 0, vars => { vars, tally := skipped }
  | n + 1, vars =>
    let r := body vars
    match r.flow with
    | .leaveLoop => { r with flow := .onward }
    | .finish => r
    | _ =>
      let more := rounds body skipped n r.vars
      { more with tally := List.zipWith (· + ·) r.tally more.tally }

mutual

/-- Runs a statement. -/
def Stmt.exec (env : Env) (vars : Bindings) : Stmt → Course
  | .bind name value _ => { vars := (vars.bind name value).1, tally := [] }
  | .run _ _ => { vars, tally := [1] }
  | .choose arms none _ => Stmt.execArms env vars { vars, tally := [] } [] arms
  | .choose arms (some body) _ =>
    Stmt.execArms env vars (Stmt.execBlock env vars body) (Stmt.chainsOf body) arms
  | .repeated count body _ =>
    Course.rounds (fun vars => Stmt.execBlock env vars body) (idleTally (Stmt.chainsOf body))
      (vars.rounds env count) vars
  | .leaveLoop _ => { vars, tally := [], flow := .leaveLoop }
  | .nextRound _ => { vars, tally := [], flow := .nextRound }
  | .finish _ => { vars, tally := [], flow := .finish }

/-- Runs statements up to the first that leaves the block. -/
def Stmt.execBlock (env : Env) (vars : Bindings) : List Stmt → Course
  | [] => { vars, tally := [] }
  | st :: rest =>
    let r := st.exec env vars
    if r.flow = .onward then
      let more := Stmt.execBlock env r.vars rest
      { more with tally := r.tally ++ more.tally }
    else { r with tally := r.tally ++ idleTally (Stmt.chainsOf rest) }

/-- Runs the first arm whose condition holds; `otherwise` is the run when there is
none, and `last` are the chain statements it runs. -/
def Stmt.execArms (env : Env) (vars : Bindings) (otherwise : Course) (last : List Chain) :
    List Branch → Course
  | [] => otherwise
  | ⟨cond, body, _⟩ :: rest =>
    if vars.holds env cond then
      let r := Stmt.execBlock env vars body
      { r with tally := r.tally ++ idleTally (Stmt.chainsOfArms rest ++ last) }
    else
      let r := Stmt.execArms env vars otherwise last rest
      { r with tally := idleTally (Stmt.chainsOf body) ++ r.tally }

end

namespace Program

/-- The chain statements of a program. -/
def chains (p : Program) : List Chain := Stmt.chainsOf p.statements

/-- How often each chain statement of a program runs in a frame. -/
def tally (p : Program) (env : Env) : List Nat := (Stmt.execBlock env {} p.statements).tally

end Program

/-! ## outlines -/

/-- A part of an outline. -/
inductive Part where
  /-- Chain statements that no frame comes to. -/
  | idle (chains : List Chain)
  /-- A chain statement, with what the names in it stand for. -/
  | run (chain : Chain) (vars : Bindings)
  /-- What runs when a condition holds, and what runs when it does not. -/
  | choose (test : Dynamic) (yes no : List Part)
  | repeated (count : Nat) (factor : Option Dynamic) (body : List Part)
  deriving Inhabited

mutual

/-- The chain statements of a part. -/
def Part.chains : Part → List Chain
  | .idle chains => chains
  | .run ch _ => [ch]
  | .choose _ yes no => Part.chainsOf yes ++ Part.chainsOf no
  | .repeated _ _ body => Part.chainsOf body

def Part.chainsOf : List Part → List Chain
  | [] => []
  | p :: ps => p.chains ++ Part.chainsOf ps

end

mutual

/-- Each chain statement of a part, and whether it can be reached: every condition
that is left may hold or not, and every loop that is left may run. -/
def Part.reach : Part → List (Chain × Bool)
  | .idle chains => chains.map fun ch => (ch, false)
  | .run ch _ => [(ch, true)]
  | .choose _ yes no => Part.reachOf yes ++ Part.reachOf no
  | .repeated _ _ body => Part.reachOf body

def Part.reachOf : List Part → List (Chain × Bool)
  | [] => []
  | p :: ps => p.reach ++ Part.reachOf ps

end

/-- How often a loop of an outline runs its body in a frame. -/
def Part.roundsIn (env : Env) (count : Nat) : Option Dynamic → Nat
  | none => count
  | some d => count * d.countIn env

mutual

/-- The tally of a part in a frame. -/
def Part.tally (env : Env) : Part → List Nat
  | .idle chains => idleTally chains
  | .run _ _ => [1]
  | .choose test yes no =>
    if (test.eval env).truthy then Part.tallyOf env yes ++ idleTally (Part.chainsOf no)
    else idleTally (Part.chainsOf yes) ++ Part.tallyOf env no
  | .repeated count factor body =>
    (Part.tallyOf env body).map (Part.roundsIn env count factor * ·)

def Part.tallyOf (env : Env) : List Part → List Nat
  | [] => []
  | p :: ps => p.tally env ++ Part.tallyOf env ps

end

mutual

/-- The steps of each chain statement of a part that begins after `base` steps. -/
def Part.sections (k : Checker) (guards : List Dynamic) (base : Nat) : Part → List (List Step)
  | .idle chains => chains.map fun _ => []
  | .run ch vars => [(Surroundings.chain { checker := k, vars, guards } base ch).steps]
  | .choose test yes no =>
    let taken := Part.sectionsOf k (guards ++ [test]) base yes
    taken ++ Part.sectionsOf k (guards ++ [test.not]) (base + taken.flatten.length) no
  | .repeated count factor body =>
    (Part.sectionsOf k guards base body).map fun own =>
      own.map fun st => (Surroundings.repeated count factor st).1

def Part.sectionsOf (k : Checker) (guards : List Dynamic) (base : Nat) :
    List Part → List (List Step)
  | [] => []
  | p :: ps =>
    let first := p.sections k guards base
    first ++ Part.sectionsOf k guards (base + first.flatten.length) ps

end

/-! ## what a block binds and whether it jumps -/

mutual

/-- The names a statement binds. -/
def Stmt.bound : Stmt → List String
  | .bind name _ _ => [name]
  | .choose arms none _ => Stmt.boundOfArms arms
  | .choose arms (some body) _ => Stmt.boundOfArms arms ++ Stmt.boundOf body
  | .repeated _ body _ => Stmt.boundOf body
  | .run .. => []
  | .leaveLoop _ => []
  | .nextRound _ => []
  | .finish _ => []

def Stmt.boundOf : List Stmt → List String
  | [] => []
  | st :: rest => st.bound ++ Stmt.boundOf rest

def Stmt.boundOfArms : List Branch → List String
  | [] => []
  | ⟨_, body, _⟩ :: rest => Stmt.boundOf body ++ Stmt.boundOfArms rest

end

mutual

/-- Whether a `break`, `continue` or `return` stands in a statement. -/
def Stmt.jumps : Stmt → Bool
  | .bind .. => false
  | .run .. => false
  | .choose arms none _ => Stmt.jumpsInArms arms
  | .choose arms (some body) _ => Stmt.jumpsInArms arms || Stmt.jumpsIn body
  | .repeated _ body _ => Stmt.jumpsIn body
  | .leaveLoop _ => true
  | .nextRound _ => true
  | .finish _ => true

def Stmt.jumpsIn : List Stmt → Bool
  | [] => false
  | st :: rest => st.jumps || Stmt.jumpsIn rest

def Stmt.jumpsInArms : List Branch → Bool
  | [] => false
  | ⟨_, body, _⟩ :: rest => Stmt.jumpsIn body || Stmt.jumpsInArms rest

end

/-! ## loose variables -/

/-- The names that are looked up when a value is bound. -/
def Expr.heads : Expr → List String
  | .ident name _ => [name]
  | .call c => [c.name]
  | .chain ch => ch.base.toList ++ ch.calls.map (·.name)
  | _ => []

namespace Bindings

/-- The names that are followed from an expression. -/
def trail (vars : Bindings) : Nat → Expr → List String
  | n + 1, .ident name _ => name :: ((vars.get? name).map fun e => trail vars n e).getD []
  | _, _ => []

/-- A condition or a count reads no loose variable. -/
def reads (vars : Bindings) (loose : List String) (e : Expr) : Bool :=
  (vars.trail maxAliases e).all fun name => !loose.contains name

end Bindings

/-- The loose variables after a binding. -/
def rebound (loose : List String) (name : String) (value : Expr) : List String :=
  if value.heads.any loose.contains then name :: loose else loose.filter (· ≠ name)

/-! ## surveys -/

/-- What a survey of statements finds. -/
structure Survey where
  vars : Bindings
  /-- The variables whose value depends on the frame or the round. -/
  loose : List String
  parts : List Part := []
  flow : Flow := .onward
  /-- No jump stands under a condition or in a loop that the frame decides on. -/
  plain : Bool := true
  /-- No condition and no count reads a loose variable. -/
  settled : Bool := true
  deriving Inhabited

namespace Survey

/-- What is found in a body that runs only in some frames. -/
def perhaps (body : List Stmt) (loose : List String) (r : Survey) : Survey :=
  { r with loose := loose ++ Stmt.boundOf body, flow := .onward,
           plain := r.plain && !Stmt.jumpsIn body }

/-- What is found in a body that runs only in some frames if `held` says so. -/
def underHold (held : Bool) (body : List Stmt) (loose : List String) (r : Survey) : Survey :=
  if held then r.perhaps body loose else r

/-- A condition or a count was read. -/
def reading (ok : Bool) (r : Survey) : Survey := { r with settled := ok && r.settled }

/-- The parts of a body between idle ones. -/
def between (before after : List Chain) (r : Survey) : Survey :=
  { r with parts := .idle before :: r.parts ++ [.idle after] }

end Survey

/-- What is known about a condition before the first frame. -/
inductive Verdict where
  | always
  | never
  | perFrame (test : Dynamic)
  deriving Inhabited

/-- Whether a condition with a verdict holds in a frame. -/
def Verdict.holds (env : Env) : Verdict → Bool
  | .always => true
  | .never => false
  | .perFrame d => (d.eval env).truthy

/-- The verdict on a condition. -/
def Bindings.verdict (vars : Bindings) (cond : Expr) : Verdict :=
  match vars.scalar? cond with
  | some (.dynamic d) => .perFrame d
  | some v => if (v.eval {}).truthy then .always else .never
  | none => .never

/-- A loop's count before the first frame: a number of rounds, and perhaps a factor
that is computed in every frame. -/
def Bindings.loop? (vars : Bindings) : Option Expr → Option (Nat × Option Dynamic)
  | none => some (1, none)
  | some e =>
    match vars.scalar? e with
    | some (.scalar x) => some (roundedCount x, none)
    | some (.dynamic d) => some (1, some d)
    | _ => none

/-- What is found in a loop with a body that was surveyed. -/
def Survey.ofLoop (count : Nat) (factor : Option Dynamic) (body : List Stmt) (loose : List String)
    (r : Survey) : Survey :=
  match factor, r.flow with
  | some d, _ => perhaps body loose { r with parts := [.repeated count (some d) r.parts] }
  | none, .leaveLoop => { r with flow := .onward }
  | none, .finish => r
  | none, _ => { r with parts := [.repeated count none r.parts], flow := .onward }

mutual

/-- Surveys a statement. -/
def Stmt.survey (vars : Bindings) (loose : List String) : Stmt → Survey
  | .bind name value _ => { vars := (vars.bind name value).1, loose := rebound loose name value }
  | .run ch _ => { vars, loose, parts := [.run ch vars] }
  | .choose arms none _ =>
    Stmt.surveyArms vars loose false (fun vars loose _ => { vars, loose }) [] arms
  | .choose arms (some body) _ =>
    Stmt.surveyArms vars loose false
      (fun vars loose held => (Stmt.surveyBlock vars loose body).underHold held body loose)
      (Stmt.chainsOf body) arms
  | .repeated count body _ =>
    let ok := count.all (vars.reads loose)
    match vars.loop? count with
    | none | some (0, _) =>
      { vars, loose, parts := [.idle (Stmt.chainsOf body)], settled := ok }
    | some (n, factor) =>
      ((Stmt.surveyBlock vars (loose ++ Stmt.boundOf body) body).ofLoop n factor body loose).reading
        ok
  | .leaveLoop _ => { vars, loose, flow := .leaveLoop }
  | .nextRound _ => { vars, loose, flow := .nextRound }
  | .finish _ => { vars, loose, flow := .finish }

/-- Surveys statements up to the first that leaves the block. -/
def Stmt.surveyBlock (vars : Bindings) (loose : List String) : List Stmt → Survey
  | [] => { vars, loose }
  | st :: rest =>
    let r := st.survey vars loose
    if r.flow = .onward then
      let more := Stmt.surveyBlock r.vars r.loose rest
      { more with
        parts := r.parts ++ more.parts
        plain := r.plain && more.plain
        settled := r.settled && more.settled }
    else { r with parts := r.parts ++ [.idle (Stmt.chainsOf rest)] }

/-- Surveys the arms of a conditional that are left; `held` says that the frame
decides whether one of them is taken, and `last` are the chain statements of
`otherwise`. -/
def Stmt.surveyArms (vars : Bindings) (loose : List String) (held : Bool)
    (otherwise : Bindings → List String → Bool → Survey) (last : List Chain) :
    List Branch → Survey
  | [] => otherwise vars loose held
  | ⟨cond, body, _⟩ :: rest =>
    let ok := vars.reads loose cond
    match vars.verdict cond with
    | .perFrame d =>
      let yes := Stmt.surveyBlock vars loose body
      let no := Stmt.surveyArms yes.vars (loose ++ Stmt.boundOf body) true otherwise last rest
      { no with
        parts := [.choose d yes.parts no.parts]
        plain := yes.plain && !Stmt.jumpsIn body && no.plain
        settled := ok && yes.settled && no.settled }
    | .always =>
      (((Stmt.surveyBlock vars loose body).underHold held body loose).between []
        (Stmt.chainsOfArms rest ++ last)).reading ok
    | .never =>
      ((Stmt.surveyArms vars loose held otherwise last rest).between
        (Stmt.chainsOf body) []).reading ok

end

/-- The survey of a program. -/
def Program.survey (p : Program) : Survey := Stmt.surveyBlock {} [] p.statements

/-- Each chain statement of a program, and whether it can be reached. -/
def Program.reach (p : Program) : List (Chain × Bool) := Part.reachOf p.survey.parts

end EffectChain
