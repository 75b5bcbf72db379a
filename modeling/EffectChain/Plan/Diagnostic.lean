import EffectChain.Fuzzy.Match
import EffectChain.Number.Format
import EffectChain.Program.Tree
import EffectChain.Registry.Operations

/-!
# EffectChain.Plan.Diagnostic

What can be wrong with a program that parses.  None of it stops planning: a step
or an argument that is wrong is left out or replaced by a default.
-/

namespace EffectChain

/-- How often a step runs in a frame at most. -/
def maxRepeat : Nat := 1024

inductive Severity where
  | error
  | warning
  | info
  deriving DecidableEq, Repr, Inhabited

def Severity.text : Severity → String
  | .error => "error"
  | .warning => "warning"
  | .info => "info"

/-- What is wrong. -/
inductive Problem where
  | unknownOperation (name : String)
  | tooManyArguments (callee : String)
  | unknownArgument (name callee : String)
  | unknownValue (value : Bytes) (arg : String)
  | outOfRange (arg : String) (given clamped : Float)
  | loopTooLong (count : Float)
  | loopsTooLong
  | unresolvedSurface (name : String)
  | unresolvedName (name : String)
  | invalidFormula (what source : String)
  | outNotWritable (surface : Surface)
  | outNotSurface
  | wrongType (arg : String) (type : ArgType)
  | wrongVector (arg : String) (type : ArgType) (given : String)
  | vectorComponents (arg given : String)
  | notScalar (what : String)
  | waveArgument (wave arg : String)
  | loopNotNumeric
  | nestedDynamicLoops
  | chainTakesNoArguments (name : String)
  | notCallable (name : String)
  | cannotStart (name : String)
  | needsInput (written canonical : String)
  | mustBegin (written canonical : String)
  | chainWithoutOut (canonical : String)
  | flowOutsideLoop (word : String)
  | unreachable
  | loopNeverRuns
  deriving Repr, Inhabited

namespace Problem

def code : Problem → String
  | .unknownOperation _ | .tooManyArguments _ | .unknownArgument .. | .unknownValue .. => "S001"
  | .outOfRange .. | .loopTooLong _ | .loopsTooLong => "S002"
  | .unresolvedSurface _ | .unresolvedName _ | .invalidFormula .. => "S003"
  | .outNotWritable _ | .outNotSurface | .wrongType .. | .wrongVector .. | .vectorComponents ..
  | .notScalar _ | .waveArgument .. | .loopNotNumeric | .nestedDynamicLoops
  | .chainTakesNoArguments _ | .notCallable _ | .cannotStart _ => "S004"
  | .needsInput .. | .mustBegin .. => "S005"
  | .chainWithoutOut _ => "S006"
  | .flowOutsideLoop _ => "S007"
  | .unreachable | .loopNeverRuns => "S008"

def severity (p : Problem) : Severity :=
  match p.code with
  | "S002" => .warning
  | "S008" => .info
  | _ => .error

/-- The name a problem is about, empty when there is none. -/
def identifier : Problem → String
  | .unknownOperation n | .tooManyArguments n | .unknownArgument n _ | .unresolvedSurface n
  | .unresolvedName n | .invalidFormula _ n | .outOfRange n .. | .wrongType n _ | .wrongVector n ..
  | .vectorComponents n _ | .waveArgument _ n | .chainTakesNoArguments n | .notCallable n
  | .cannotStart n | .needsInput n _ | .mustBegin n _ | .chainWithoutOut n | .flowOutsideLoop n => n
  | .unknownValue v _ => Bytes.toString v
  | .outNotWritable s => s.name
  | .loopTooLong _ | .loopsTooLong | .outNotSurface | .notScalar _ | .loopNotNumeric
  | .nestedDynamicLoops | .unreachable | .loopNeverRuns => ""

/-- The sentence that states a problem. -/
def message : Problem → String
  | .unknownOperation n => "unknown operation " ++ Text.quote n
  | .tooManyArguments c => "too many arguments to " ++ c
  | .unknownArgument n c => "unknown argument " ++ Text.quote n ++ " to " ++ c
  | .unknownValue v a => "unknown value " ++ Text.quoteBytes v ++ " for argument " ++ Text.quote a
  | .outOfRange a given clamped =>
    "argument " ++ Text.quote a ++ " value " ++ Number.plain given ++
      " out of range, clamped to " ++
      Number.plain clamped
  | .loopTooLong c =>
      "loop count " ++ Number.plain c ++ " exceeds " ++ toString maxRepeat ++ "; clamped"
  | .loopsTooLong => "nested loop counts exceed " ++ toString maxRepeat ++ "; clamped"
  | .unresolvedSurface n => "unresolved surface " ++ Text.quote n
  | .unresolvedName n => "unresolved identifier " ++ Text.quote n
  | .invalidFormula what _ => "invalid " ++ what ++ " expression: expression compilation failed"
  | .outNotWritable _ => "out() target must be an output or feedback surface"
  | .outNotSurface => "out() target must be a surface"
  | .wrongType a t => "argument " ++ Text.quote a ++ " expects " ++ t.text
  | .wrongVector a t g => "argument " ++ Text.quote a ++ " expects " ++ t.text ++ ", got " ++ g
  | .vectorComponents _ g => g ++ " components must be numeric literals"
  | .notScalar what => what ++ " must be a number, boolean, closure or state field"
  | .waveArgument w a => w ++ " argument " ++ Text.quote a ++ " must be a number"
  | .loopNotNumeric => "loop count must be numeric"
  | .nestedDynamicLoops => "nested dynamic loop counts are not supported; using the inner count"
  | .chainTakesNoArguments n => "chain variable " ++ Text.quote n ++ " does not take arguments"
  | .notCallable n => "variable " ++ Text.quote n ++ " is not callable"
  | .cannotStart n => "variable " ++ Text.quote n ++ " cannot start a chain"
  | .needsInput _ c => c ++ " requires an input and cannot begin a chain"
  | .mustBegin _ c => c ++ " must begin a chain"
  | .chainWithoutOut c => "chain starting with " ++ c ++ " has no out()"
  | .flowOutsideLoop w => w ++ " outside loop"
  | .unreachable => "unreachable statement"
  | .loopNeverRuns => "loop body never executes"

end Problem

/-- A problem at a place, with a similar known name if there is one. -/
structure Diagnostic where
  problem : Problem
  pos : Pos := {}
  suggestion : String := ""
  deriving Repr, Inhabited

namespace Diagnostic

def severity (d : Diagnostic) : Severity := d.problem.severity

/-- The diagnostic as one line. -/
def text (d : Diagnostic) : String :=
  d.problem.code ++ " " ++ d.severity.text ++ (if d.pos.isKnown then " " ++ d.pos.text else "") ++
    ": " ++ d.problem.message ++
    (if d.suggestion = "" then "" else " (did you mean \"" ++ d.suggestion ++ "\"?)")

/-- The diagnostic as named texts. -/
def attrs (d : Diagnostic) : List (String × String) :=
  [("code", d.problem.code), ("severity", d.severity.text), ("message", d.problem.message)] ++
    (if d.pos.isKnown then [("pos", d.pos.text)] else []) ++
    (if d.problem.identifier = "" then [] else [("identifier", d.problem.identifier)])

/-- The candidate most like a name, unless it is the name itself. -/
def similar (name : String) (candidates : List String) : String :=
  if name = "" then ""
  else match Fuzzy.find name candidates with
    | m :: _ => if m.text = name then "" else m.text
    | [] => ""

end Diagnostic

/-- Whether one of the diagnostics is an error. -/
def hasErrors (ds : List Diagnostic) : Bool := ds.any (·.severity = .error)

end EffectChain
