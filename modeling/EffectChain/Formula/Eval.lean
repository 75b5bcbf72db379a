import EffectChain.Formula.Parser
import EffectChain.Formula.Typing

/-!
# EffectChain.Formula.Eval

The value of a formula.  Evaluating fails where an operator or a function meets a
value it does not take, an integer is divided by zero or a list has no such
element.
-/

namespace EffectChain

namespace Datum

mutual

/-- Equality of values: numbers by value, lists by element. -/
def same : Datum → Datum → Bool
  | .null, .null => true
  | .bool a, .bool b => a = b
  | .int a, .int b => a = b
  | .int a, .float b => Number.ofInt a == b
  | .float a, .int b => a == Number.ofInt b
  | .float a, .float b => a == b
  | .text a, .text b => a = b
  | .surface a, .surface b => a = b
  | .list a, .list b => sameAll a b
  | _, _ => false

def sameAll : List Datum → List Datum → Bool
  | [], [] => true
  | a :: as, b :: bs => same a b && sameAll as bs
  | _, _ => false

end

/-- A number that is an integer or a float. -/
def plainNumber? : Datum → Option Float
  | .int i => some (Number.ofInt i)
  | .float x => some x
  | _ => none

/-- Integers by one operation, other numbers by another. -/
def arithmetic? (ints : Int → Int → Int) (floats : Float → Float → Float) (a b : Datum) :
    Option Datum :=
  match a, b with
  | .int x, .int y => some (.int (Number.wrap64 (ints x y)))
  | _, _ => do return .float (floats (← a.plainNumber?) (← b.plainNumber?))

/-- Numbers or texts in order. -/
def ordered? (ints : Int → Int → Bool) (floats : Float → Float → Bool)
    (texts : String → String → Bool) (a b : Datum) : Option Datum :=
  match a, b with
  | .int x, .int y => some (.bool (ints x y))
  | .text x, .text y => some (.bool (texts x y))
  | _, _ => do return .bool (floats (← a.plainNumber?) (← b.plainNumber?))

/-- Equality of values of a known kind; other values fail. -/
def sameAs? (as : Formula.Likeness) (a b : Datum) : Option Bool :=
  match as, a, b with
  | .ints, .int x, .int y => some (x = y)
  | .texts, .text x, .text y => some (x = y)
  | .any, a, b => some (a.same b)
  | _, _, _ => none

end Datum

namespace Function

/-- The larger of two numbers; infinity wins over what is not a number. -/
def larger (x y : Float) : Float :=
  if x == Number.infinity false || y == Number.infinity false then Number.infinity false
  else if x.isNaN || y.isNaN then 0.0 / 0.0
  else if x == 0 && y == 0 then (if Number.isNegative x then y else x)
  else if x > y then x else y

/-- The smaller of two numbers; infinity wins over what is not a number. -/
def smaller (x y : Float) : Float :=
  if x == Number.infinity true || y == Number.infinity true then Number.infinity true
  else if x.isNaN || y.isNaN then 0.0 / 0.0
  else if x == 0 && y == 0 then (if Number.isNegative x then x else y)
  else if x < y then x else y

/-- The value of a function. -/
def value? (f : Function) (args : List Datum) : Option Datum :=
  match f, args with
  | .truthy, [d] => some (.bool d.truthy)
  | .sin, [.float x] => some (.float x.sin)
  | .cos, [.float x] => some (.float x.cos)
  | .tan, [.float x] => some (.float x.tan)
  | .sqrt, [.float x] => some (.float x.sqrt)
  | .pow, [.float x, .float y] => some (.float (x.pow y))
  | .fract, [.float x] => some (.float (x - x.floor))
  | .mix, [.float a, .float b, .float t] => some (.float (a + (b - a) * t))
  | .clamp, [.float x, .float lo, .float hi] => some (.float (smaller (larger x lo) hi))
  | _, _ => none

end Function

namespace Builtin

/-- The better of the best number so far and the next one. -/
def pick (better : Float → Float → Bool) (best : Option Datum) (d : Datum) : Option Datum :=
  match best with
  | none => some d
  | some b =>
    match b.plainNumber?, d.plainNumber? with
    | some x, some y => if better x y then some d else some b
    | _, _ => some b

mutual

/-- The first of the numbers that `better` prefers to all before it; lists count
by their elements, and anything else is only taken when it stands alone. -/
def extremum? (better : Float → Float → Bool) (alone : Bool) (best : Option Datum) :
    List Datum → Option (Option Datum)
  | [] => some best
  | d :: ds => do
    match d with
    | .int i => extremum? better alone (pick better best (.int i)) ds
    | .float x => extremum? better alone (pick better best (.float x)) ds
    | .list xs => extremum? better alone (← elements? better best xs) ds
    | d => if alone then some (some d) else none

def elements? (better : Float → Float → Bool) (best : Option Datum) :
    List Datum → Option (Option Datum)
  | [] => some best
  | d :: ds => do
    match d with
    | .int i => elements? better (pick better best (.int i)) ds
    | .float x => elements? better (pick better best (.float x)) ds
    | .list xs =>
      match ← elements? better none xs with
      | some e => elements? better (pick better best e) ds
      | none => none
    | _ => none

end

/-- A value rounded; integers become floats. -/
def rounded? (f : Float → Float) : Datum → Option Datum
  | .float x => some (.float (f x))
  | .int i => some (.float (Number.ofInt i))
  | _ => none

/-- The value of a built-in function. -/
def value? (f : Builtin) (args : List Datum) : Option Datum :=
  match f, args with
  | .abs, [.int i] => some (.int (if i < 0 then Number.wrap64 (-i) else i))
  | .abs, [.float x] => some (.float (if x < 0 then -x else x))
  | .ceil, [d] => rounded? Float.ceil d
  | .floor, [d] => rounded? Float.floor d
  | .round, [d] => rounded? Number.round d
  | .int, [.int i] => some (.int i)
  | .int, [.float x] => some (.int (Number.toInt64 x))
  | .int, [.text s] => (Number.whole? s).map .int
  | .float, [.int i] => some (.float (Number.ofInt i))
  | .float, [.float x] => some (.float x)
  | .float, [.text s] => (Number.read? s).map .float
  | .min, ds => (extremum? (fun x y => x > y) (ds.length = 1) none ds).map (·.getD .null)
  | .max, ds => (extremum? (fun x y => x < y) (ds.length = 1) none ds).map (·.getD .null)
  | _, _ => none

end Builtin

namespace Formula

/-- The value of an operator whose operands are both computed. -/
def binary? (op : Binary) (a b : Datum) : Option Datum :=
  match op with
  | .add =>
    match a, b with
    | .text x, .text y => some (.text (x ++ y))
    | _, _ => a.arithmetic? (· + ·) (· + ·) b
  | .sub => a.arithmetic? (· - ·) (· - ·) b
  | .mul => a.arithmetic? (· * ·) (· * ·) b
  | .div => do return .float ((← a.plainNumber?) / (← b.plainNumber?))
  | .pow => do return .float (Float.pow (← a.plainNumber?) (← b.plainNumber?))
  | .mod =>
    match a, b with
    | .int x, .int y => if y = 0 then none else some (.int (Int.tmod x y))
    | _, _ => none
  | .lt => a.ordered? (· < ·) (· < ·) (· < ·) b
  | .le => a.ordered? (· ≤ ·) (· ≤ ·) (· ≤ ·) b
  | .gt => a.ordered? (· > ·) (· > ·) (· > ·) b
  | .ge => a.ordered? (· ≥ ·) (· ≥ ·) (· ≥ ·) b
  | .equal as => (a.sameAs? as b).map .bool
  | .differ as => (a.sameAs? as b).map fun s => .bool (!s)
  | .and | .or => none

def unary? (op : Unary) (a : Datum) : Option Datum :=
  match op, a with
  | .plus, d => some d
  | .minus, .int i => some (.int (Number.wrap64 (-i)))
  | .minus, .float x => some (.float (-x))
  | .not, .bool b => some (.bool (!b))
  | _, _ => none

/-- An element of a list; a negative position counts from the end. -/
def element? (d i : Datum) : Option Datum := do
  let k ← match i with
    | .int k => some k
    | .float x => some (Number.toInt64 x)
    | _ => none
  match d with
  | .list xs =>
    let k := if k < 0 then k + xs.length else k
    if k < 0 then none else xs[k.toNat]?
  | _ => none

mutual

/-- The value of a formula; a name without a value is null. -/
def eval (env : Env) : Formula → Option Datum
  | .null => some .null
  | .bool b => some (.bool b)
  | .int i => some (.int i)
  | .float x => some (.float x)
  | .text s => some (.text s)
  | .name n => some (env.getD n .null)
  | .unary op e => do unary? op (← eval env e)
  | .binary op l r =>
    match op with
    | .and => do
      match ← eval env l with
      | .bool true => eval env r
      | .bool false => some (.bool false)
      | _ => none
    | .or => do
      match ← eval env l with
      | .bool true => some (.bool true)
      | .bool false => eval env r
      | _ => none
    | op => do
      let a ← eval env l
      let b ← eval env r
      binary? op a b
  | .choose c y n => do
    match ← eval env c with
    | .bool true => eval env y
    | .bool false => eval env n
    | _ => none
  | .list es => (evalAll env es).map .list
  | .index e i => do
    let d ← eval env e
    let k ← eval env i
    element? d k
  | .field _ _ => none
  | .builtin f es => do f.value? (← evalAll env es)
  | .call n es => do
    let args ← evalAll env es
    match env.get? n with
    | some (.function f) => f.value? args
    | _ => none
  | .seq a b => do
    let _ ← eval env a
    eval env b

def evalAll (env : Env) : List Formula → Option (List Datum)
  | [] => some []
  | e :: es => do
    let d ← eval env e
    let ds ← evalAll env es
    return d :: ds

end

/-- The form a formula is evaluated in, if it is accepted; `scope` gives the
kinds of names. -/
def compile? (scope : String → Option Kind) (source : String) : Option Formula := do
  let (_, e) ← check scope (← read? source)
  fold e

/-- Every name is known, and nothing is known of its value. -/
def anyScope (_ : String) : Option Kind := some .any

end Formula

end EffectChain
