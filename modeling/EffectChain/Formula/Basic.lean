import EffectChain.Data.Table
import EffectChain.Number.Whole
import EffectChain.Program.Surface

/-!
# EffectChain.Formula.Basic

Formulas, the expressions that closures and the conditions of passes are written in: what
evaluating them gives (null, truth values, integers of 64 bits, floats, texts, lists, surfaces
and the functions formulas can call), and their parsed form.

The expression language that formulas belong to has more than that: maps, membership (`in`),
tests of texts (`matches`, `contains`, `startsWith`, `endsWith`), ranges, slices, optional
selection, pipes, predicates, `let`, `if` and many more built-in functions, such as `len`.  A
text with one of them is a formula of the language and is none here: no formula is read from
it.  What is proved of formulas does not depend on which texts are read.
-/

namespace EffectChain

/-! ## data -/

/-- The functions a formula finds among its names. -/
inductive Function where
  | sin
  | cos
  | tan
  | sqrt
  | pow
  | fract
  | mix
  | clamp
  | truthy
  deriving DecidableEq, Repr, Inhabited

namespace Function

def name : Function → String
  | .sin => "sin"
  | .cos => "cos"
  | .tan => "tan"
  | .sqrt => "sqrt"
  | .pow => "pow"
  | .fract => "fract"
  | .mix => "mix"
  | .clamp => "clamp"
  | .truthy => "truthy"

def all : List Function := [.sin, .cos, .tan, .sqrt, .pow, .fract, .mix, .clamp, .truthy]

/-- How many arguments a function takes. -/
def arity : Function → Nat
  | .sin | .cos | .tan | .sqrt | .fract | .truthy => 1
  | .pow => 2
  | .mix | .clamp => 3

end Function

/-- A value that evaluating gives. -/
inductive Datum where
  | null
  | bool (value : Bool)
  | int (value : Int)
  | float (value : Float)
  | text (value : String)
  | list (items : List Datum)
  | surface (value : Surface)
  | function (value : Function)
  deriving Repr, Inhabited

namespace Datum

/-- The number a value counts as; a truth value counts as one or zero. -/
def number? : Datum → Option Float
  | .int i => some (Number.ofInt i)
  | .float x => some x
  | .bool b => some (if b then 1 else 0)
  | _ => none

/-- Whether a value holds: a true one, a text that is not empty, a number that is
not zero. -/
def truthy : Datum → Bool
  | .bool b => b
  | .text s => s ≠ ""
  | d => d.number?.any (· != 0)

end Datum

/-- The values of names. -/
abbrev Env := Table Datum

/-! ## expressions -/

/-- The functions that are part of the language. -/
inductive Builtin where
  | abs
  | ceil
  | floor
  | round
  | min
  | max
  | int
  | float
  deriving DecidableEq, Repr, Inhabited

namespace Builtin

def name : Builtin → String
  | .abs => "abs"
  | .ceil => "ceil"
  | .floor => "floor"
  | .round => "round"
  | .min => "min"
  | .max => "max"
  | .int => "int"
  | .float => "float"

def all : List Builtin := [.abs, .ceil, .floor, .round, .min, .max, .int, .float]

def ofName? (name : String) : Option Builtin := all.find? (·.name = name)

end Builtin

namespace Formula

inductive Unary where
  | plus
  | minus
  | not
  deriving DecidableEq, Repr, Inhabited

/-- How two values are compared: as values of any kind, or as ones that are known
to be integers or texts. -/
inductive Likeness where
  | any
  | ints
  | texts
  deriving DecidableEq, Repr, Inhabited

inductive Binary where
  | add
  | sub
  | mul
  | div
  | mod
  | pow
  | lt
  | le
  | gt
  | ge
  | equal (as : Likeness)
  | differ (as : Likeness)
  | and
  | or
  deriving DecidableEq, Repr, Inhabited

end Formula

open Formula in
/-- An expression over named values. -/
inductive Formula where
  | null
  | bool (value : Bool)
  | int (value : Int)
  | float (value : Float)
  | text (value : String)
  | name (name : String)
  | unary (op : Unary) (operand : Formula)
  | binary (op : Binary) (left right : Formula)
  | choose (cond yes no : Formula)
  | list (items : List Formula)
  | index (base position : Formula)
  | field (base : Formula) (name : String)
  | builtin (function : Builtin) (args : List Formula)
  | call (name : String) (args : List Formula)
  | seq (first second : Formula)
  deriving Repr, Inhabited

end EffectChain
