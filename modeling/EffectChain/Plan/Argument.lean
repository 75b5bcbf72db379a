import EffectChain.Plan.Basic
import EffectChain.Plan.Binding
import EffectChain.Program.Parser
import EffectChain.Registry.Operations

/-!
# EffectChain.Plan.Argument

The values of arguments.  Every function gives the value, if there is one, and
the diagnostics found on the way.
-/

namespace EffectChain

/-- What programs are checked against. -/
structure Checker where
  registry : Registry := {}
  suggest : Bool := true
  deriving Repr, Inhabited

/-- A value with the diagnostics found on the way to it. -/
abbrev Noted (α : Type) := α × List Diagnostic

namespace Checker

/-- A problem with the candidate most like its name. -/
def suggesting (k : Checker) (p : Problem) (pos : Pos) (candidates : List String) : Diagnostic :=
  { problem := p, pos,
    suggestion := if k.suggest then Diagnostic.similar p.identifier candidates else "" }

def refused {α : Type} (p : Problem) (pos : Pos) : Noted (Option α) :=
  (none, [{ problem := p, pos }])

def accepted {α : Type} (x : α) : Noted (Option α) := (some x, [])

/-- An argument of the wrong type. -/
def mismatch (a : ArgSpec) (e : Expr) : Noted (Option Value) :=
  refused (.wrongType a.name a.type) e.pos

/-! ## numbers -/

def waveFields : List String := ["min", "max", "speed", "offset"]

/-- An oscillator with one of its numbers set. -/
def setWaveField (o : Oscillator) (field : String) (x : Float) : Oscillator :=
  match field with
  | "min" => { o with min := x }
  | "max" => { o with max := x }
  | "speed" => { o with speed := x }
  | _ => { o with offset := x }

def waveArgument (name : String) (o : Oscillator) (field : String) (e : Expr) :
    Noted (Option Oscillator) :=
  match e with
  | .number x _ _ => accepted (setWaveField o field x)
  | e => refused (.waveArgument name field) e.pos

/-- The positional arguments of an oscillator, for the fields that are left. -/
def wavePositional (name : String) (o : Oscillator) :
    List String → List Expr → Noted (Option Oscillator)
  | _, [] => accepted o
  | [], e :: _ => refused (.tooManyArguments name) e.pos
  | f :: fs, e :: es =>
    match waveArgument name o f e with
    | (some o, _) => wavePositional name o fs es
    | r => r

def waveKeywords (k : Checker) (name : String) (o : Oscillator) :
    List Keyword → Noted (Option Oscillator)
  | [] => accepted o
  | kw :: kws =>
    if waveFields.contains kw.name then
      match waveArgument name o kw.name kw.value with
      | (some o, _) => waveKeywords k name o kws
      | r => r
    else (none, [k.suggesting (.unknownArgument kw.name name) kw.pos waveFields])

/-- The oscillator a call stands for. -/
def oscillator (k : Checker) (c : Call) : Noted (Option Oscillator) :=
  match wavePositional c.name { wave := .ofName c.name } waveFields c.args with
  | (some o, _) => k.waveKeywords c.name o c.kwargs
  | r => r

/-- A call of a wave. -/
def isWaveCall (c : Call) : Bool := (Wave.ofName? c.name).isSome && !c.ns.explicit

/-- A number, a truth value or something that is computed in every frame. -/
def scalar (k : Checker) (vars : Bindings) (e : Expr) (min max : Option Float) (what : String) :
    Noted (Option Value) :=
  match vars.deref e with
  | .number x _ _ => accepted (.scalar x)
  | .bool b _ => accepted (.boolean b)
  | .closure source pos =>
    match Dynamic.closure? source with
    | some d => accepted (.dynamic (d.bounded min max))
    | none => refused (.invalidFormula what source) pos
  | .ident name pos =>
    if isStateField name then accepted (.dynamic ((Dynamic.ofState name).bounded min max))
    else (none, [k.suggesting (.unresolvedName name) pos stateFields])
  | .call c =>
    if isWaveCall c then
      match k.oscillator c with
      | (some o, ds) => (some (.dynamic ((Dynamic.ofOscillator o).bounded min max)), ds)
      | (none, ds) => (none, ds)
    else refused (.notScalar what) e.pos
  | _ => refused (.notScalar what) e.pos

/-! ## constants -/

/-- The value of a constant: a choice of the argument, else a constant of the
registry, whose first names may be missing. -/
def member? (k : Checker) (a : ArgSpec) (path : List String) : Option Float :=
  let choice := match path with
    | [name] => a.choices.get? name
    | _ => none
  choice.or ((k.registry.enums.lookupWithin? path
    (if a.enum = "" then [] else Text.splitChar '.' a.enum)).map (·.1))

/-- The constants an argument may have. -/
def memberNames (k : Checker) (a : ArgSpec) : List String :=
  a.choices.keys ++
    if a.enum = "" then []
    else ((k.registry.enums.find? (Text.splitChar '.' a.enum)).map (·.names)).getD []

def memberArg (k : Checker) (a : ArgSpec) (e : Expr) : Noted (Option Value) :=
  let named := fun (written : Bytes) (path : List String) =>
    match k.member? a path with
    | some x => accepted (.scalar x)
    | none => (none, [k.suggesting (.unknownValue written a.name) e.pos (k.memberNames a)])
  match e with
  | .number x _ _ => accepted (.scalar x)
  | .ident name _ => named (.ofString name) [name]
  | .member path _ => named (.ofString (".".intercalate path)) path
  | .string s _ => named s (Text.splitChar '.' (Bytes.toString s))
  | e => mismatch a e

/-- An argument has constants for values. -/
def hasMembers (a : ArgSpec) : Bool := a.enum ≠ "" || !a.choices.isEmpty

def numberArg (k : Checker) (vars : Bindings) (a : ArgSpec) (e : Expr) : Noted (Option Value) :=
  let other := fun (_ : Unit) => k.scalar vars e a.min a.max ("argument " ++ a.name)
  match e with
  | .number x _ pos =>
    let x := if a.type = .int then Number.round x else x
    let (c, clamped) := a.clamp x
    (some (.scalar c), if clamped then [{ problem := .outOfRange a.name x c, pos }] else [])
  | .bool .. | .string .. | .color .. | .surface .. | .chain .. => mismatch a e
  | .ident name _ =>
    if !isStateField name && hasMembers a then k.memberArg a e else other ()
  | .member path pos =>
    if hasMembers a then k.memberArg a e
    else match k.registry.enums.lookup? path with
      | some x => accepted (.scalar (a.clamp x).1)
      | none => refused (.unresolvedName (".".intercalate path)) pos
  | .call c => if isWaveCall c then other () else mismatch a e
  | .closure .. => other ()

def boolArg (k : Checker) (vars : Bindings) (a : ArgSpec) (e : Expr) : Noted (Option Value) :=
  match e with
  | .bool b _ => accepted (.boolean b)
  | .number x _ _ => accepted (.boolean (x != 0))
  | .closure .. | .ident .. => k.scalar vars e none none ("argument " ++ a.name)
  | e => mismatch a e

/-! ## vectors -/

def vectorSize (t : ArgType) : Nat := if t = .vec3 then 3 else 4

/-- The first expression that is no number, or all the numbers. -/
def numbers : List Expr → Except Expr (List Float)
  | [] => .ok []
  | .number x _ _ :: es => do return x :: (← numbers es)
  | e :: _ => .error e

def vectorArg (a : ArgSpec) (e : Expr) : Noted (Option Value) :=
  let want := vectorSize a.type
  match e with
  | .color raw rgba _ =>
    let literal := if a.type = .color || raw.utf8ByteSize ≠ 9 then raw else ""
    accepted (.vector (rgba.components want) literal)
  | .call c =>
    if c.ns.explicit || (c.name ≠ "vec3" && c.name ≠ "vec4") || !c.kwargs.isEmpty then mismatch a e
    else
      let have_ := if c.name = "vec4" then 4 else 3
      if c.args.length ≠ have_ || have_ >
        want then refused (.wrongVector a.name a.type c.name) c.pos
      else match numbers c.args with
        | .error bad => refused (.vectorComponents a.name c.name) bad.pos
        | .ok xs => accepted (.vector (if xs.length < want then xs ++ [1] else xs) "")
  | e => mismatch a e

/-! ## defaults -/

/-- The value of an argument that is not written, if it has one. -/
def defaultValue (k : Checker) (a : ArgSpec) : Option Value :=
  let plain := fun (_ : Unit) =>
    match a.default with
    | .null =>
      match a.type with
      | .boolean => some (Value.boolean false)
      | .string => some (.text [])
      | _ => some (.scalar 0)
    | d =>
      match Value.ofDocument? d with
      | some (.scalar x) => some (.scalar (a.clamp x).1)
      | v => v
  match a.type with
  | .surface =>
    match a.default with
    | .text s => (Surface.ofName? s).map .ref
    | _ => none
  | .member =>
    match a.default with
    | .text s => some (.scalar ((k.member? a (Text.splitChar '.' s)).getD 0))
    | _ => plain ()
  | .color | .vec3 | .vec4 =>
    let want := vectorSize a.type
    let other := fun (_ : Unit) =>
      match Value.ofDocument? a.default with
      | some (.vector xs l) => some (Value.vector xs l)
      | _ => some (.vector (if want = 4 then [0, 0, 0, 1] else [0, 0, 0]) "")
    match a.default with
    | .text s =>
      if s.startsWith "#" then
        some (.vector ((Parser.colorOf s).components want) (if a.type = .color then s else ""))
      else other ()
    | _ => other ()
  | _ => plain ()

end Checker

end EffectChain
