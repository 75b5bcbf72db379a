import EffectChain.Formula.Basic

/-!
# EffectChain.Formula.Typing

Which formulas are accepted, and the form they are evaluated in.

`check` gives the kind of a formula's value and rewrites the formula: integers
written where a function takes floats become floats, and equality of two
integers or two texts is marked as such.  `fold` then computes what is constant.
A value of kind `any` is only known when the formula is evaluated.
-/

namespace EffectChain.Formula

/-- What is known of a value before it is computed. -/
inductive Kind where
  | null
  | bool
  | int
  | float
  | text
  | list (element : Kind)
  | function (value : Function)
  | any
  deriving DecidableEq, Repr, Inhabited

namespace Kind

def isNumber (k : Kind) : Bool := k = .int || k = .float

/-- Whether two kinds are of one shape; the elements of lists do not count. -/
def sameShape : Kind → Kind → Bool
  | .list _, .list _ => true
  | .function _, .function _ => true
  | a, b => a = b

/-- Whether two values may be tested for equality. -/
def comparable (a b : Kind) : Bool :=
  a = .any || b = .any || a = .null || b = .null || (a.isNumber && b.isNumber) || sameShape a b

/-- Whether one kind is open and the other one open or in a list of kinds. -/
def openWith (ks : List Kind) (a b : Kind) : Bool :=
  (a = .any && b = .any) || (a = .any && ks.contains b) || (b = .any && ks.contains a)

/-- The kind of a sum, a difference or a product of numbers. -/
def combined (a b : Kind) : Kind := if a = .float || b = .float then .float else .int

/-- The kind of a choice. -/
def either (a b : Kind) : Kind :=
  if a = .null then b else if b = .null then a else if sameShape a b then a else .any

/-- The kind of the elements of a list with elements of the given kinds. -/
def element (ks : List Kind) : Kind :=
  match ks.getLast? with
  | none => .any
  | some last => if ks.all (sameShape last) then last else .any

end Kind

open Kind

/-! ## checking -/

/-- The kind of an operator's result, if it takes operands of these kinds. -/
def binaryKind? (op : Binary) (a b : Kind) : Option Kind :=
  let numbers := a.isNumber && b.isNumber
  let texts := a = .text && b = .text
  match op with
  | .equal _ | .differ _ => if comparable a b then some .bool else none
  | .and | .or => if (a = .bool && b = .bool) || openWith [.bool] a b then some .bool else none
  | .lt | .le | .gt | .ge =>
    if numbers || texts || openWith [.int, .float, .text] a b then some .bool else none
  | .sub | .mul =>
    if numbers then some (combined a b) else if openWith [.int, .float] a b then some .any else none
  | .div | .pow => if numbers || openWith [.int, .float] a b then some .float else none
  | .mod => if (a = .int && b = .int) || openWith [.int] a b then some .int else none
  | .add =>
    if numbers then some (combined a b)
    else if texts then some .text
    else if openWith [.int, .float, .text] a b then some .any else none

def unaryKind? (op : Unary) (a : Kind) : Option Kind :=
  match op with
  | .not => if a = .bool || a = .any then some .bool else none
  | .plus | .minus => if a.isNumber || a = .any then some a else none

/-- The kind of a built-in function's result.  Rounding is of kind integer when
its argument is, though its value is a float. -/
def builtinKind? (f : Builtin) (args : List Kind) : Option Kind :=
  match f, args with
  | .abs, [a] => if a.isNumber || a = .any then some a else none
  | .ceil, [a] | .floor, [a] | .round, [a] =>
    if a = .int || a = .any then some .int else if a = .float then some .float else none
  | .int, [a] => if a.isNumber || a = .any || a = .text then some .int else none
  | .float, [a] => if a.isNumber || a = .any || a = .text then some .float else none
  | .min, first :: rest | .max, first :: rest => extremum first (first :: rest)
  | _, _ => none
where
  extremum (first : Kind) : List Kind → Option Kind
    | [] => some first
    | .any :: _ | .list _ :: _ => some .any
    | k :: ks => if k.isNumber then extremum first ks else none

/-- An argument with floats for the integers written in it. -/
def withFloats : Formula → Formula
  | .int i => .float (Number.ofInt i)
  | .unary op e => .unary op (withFloats e)
  | .binary op l r =>
    match op with
    | .add | .sub | .mul => .binary op (withFloats l) (withFloats r)
    | _ => .binary op l r
  | e => e

/-- An argument of a function that takes floats. -/
def floatArgument? (a : Kind × Formula) : Option Formula :=
  match a.1 with
  | .int => some (withFloats a.2)
  | .float | .any => some a.2
  | _ => none

/-- The arguments of a function, if it takes them. -/
def arguments? (f : Function) (args : List (Kind × Formula)) : Option (List Formula) :=
  if args.length ≠ f.arity then none
  else match f with
    | .truthy => some (args.map (·.2))
    | _ => args.mapM floatArgument?

def resultKind : Function → Kind
  | .truthy => .bool
  | _ => .float

def likeness (a b : Kind) : Likeness :=
  if a = .int && b = .int then .ints else if a = .text && b = .text then .texts else .any

/-- An operator that knows what its operands are. -/
def settled (op : Binary) (a b : Kind) : Binary :=
  match op with
  | .equal _ => .equal (likeness a b)
  | .differ _ => .differ (likeness a b)
  | op => op

mutual

/-- The kind of a formula's value and the form it is evaluated in; `scope` gives
the kinds of names. -/
def check (scope : String → Option Kind) : Formula → Option (Kind × Formula)
  | .null => some (.null, .null)
  | .bool b => some (.bool, .bool b)
  | .int i => some (.int, .int i)
  | .float x => some (.float, .float x)
  | .text s => some (.text, .text s)
  | .name n => (scope n).map fun k => (k, .name n)
  | .unary op e => do
    let (k, e) ← check scope e
    return (← unaryKind? op k, .unary op e)
  | .binary op l r => do
    let (a, l) ← check scope l
    let (b, r) ← check scope r
    return (← binaryKind? op a b, .binary (settled op a b) l r)
  | .choose c y n => do
    let (k, c) ← check scope c
    if k = .bool || k = .any then do
      let (a, y) ← check scope y
      let (b, n) ← check scope n
      return (either a b, .choose c y n)
    else none
  | .list es => do
    let es ← checkAll scope es
    return (.list (element (es.map (·.1))), .list (es.map (·.2)))
  | .index e i => do
    let (k, e) ← check scope e
    let (p, i) ← check scope i
    match k with
    | .any => return (.any, .index e i)
    | .list el => if p = .int || p = .any then return (el, .index e i) else none
    | _ => none
  | .field e f => do
    let (k, e) ← check scope e
    if k = .any then return (.any, .field e f) else none
  | .builtin f es => do
    let es ← checkAll scope es
    return (← builtinKind? f (es.map (·.1)), .builtin f (es.map (·.2)))
  | .call n es => do
    match ← scope n with
    | .any => return (.any, .call n es)
    | .function f => return (resultKind f, .call n (← arguments? f (← checkAll scope es)))
    | _ => none
  | .seq a b => do
    let (_, a) ← check scope a
    let (k, b) ← check scope b
    return (k, .seq a b)

def checkAll (scope : String → Option Kind) : List Formula → Option (List (Kind × Formula))
  | [] => some []
  | e :: es => do return (← check scope e) :: (← checkAll scope es)

end

/-! ## constants -/

/-- A number that is written out. -/
def literal? : Formula → Option Datum
  | .int i => some (.int i)
  | .float x => some (.float x)
  | _ => none

/-- A constant operator on two numbers; `none` when an integer is divided by zero. -/
def foldNumbers (op : Binary) (a b : Datum) (e : Formula) : Option Formula :=
  let arithmetic := fun (ints : Int → Int → Int) (floats : Float → Float → Float) =>
    match a, b with
    | .int x, .int y => some (Formula.int (Number.wrap64 (ints x y)))
    | _, _ => some (.float (floats (a.number?.getD 0) (b.number?.getD 0)))
  match op with
  | .add => arithmetic (· + ·) (· + ·)
  | .sub => arithmetic (· - ·) (· - ·)
  | .mul => arithmetic (· * ·) (· * ·)
  | .div => some (.float (a.number?.getD 0 / b.number?.getD 0))
  | .pow => some (.float (Float.pow (a.number?.getD 0) (b.number?.getD 0)))
  | .mod =>
    match a, b with
    | .int x, .int y => if y = 0 then none else some (.int (Int.tmod x y))
    | _, _ => some e
  | .equal _ =>
    match a, b with
    | .int x, .int y => some (.bool (x = y))
    | _, _ => some e
  | _ => some e

/-- An operator on parts that are folded already. -/
def foldBinary (op : Binary) (l r : Formula) : Option Formula :=
  let e := Formula.binary op l r
  match literal? l, literal? r with
  | some a, some b => foldNumbers op a b e
  | _, _ =>
    match op, l, r with
    | .add, .text a, .text b => some (.text (a ++ b))
    | .equal _, .text a, .text b => some (.bool (a = b))
    | .equal _, .bool a, .bool b => some (.bool (a = b))
    | .and, .bool true, r => some r
    | .and, l, .bool true => some l
    | .and, .bool false, _ | .and, _, .bool false => some (.bool false)
    | .or, .bool false, r => some r
    | .or, l, .bool false => some l
    | .or, .bool true, _ | .or, _, .bool true => some (.bool true)
    | _, _, _ => some e

def foldUnary (op : Unary) (e : Formula) : Formula :=
  match op, e with
  | .minus, .int i => .int (Number.wrap64 (-i))
  | .minus, .float x => .float (-x)
  | .plus, .int i => .int i
  | .plus, .float x => .float x
  | .not, .bool b => .bool (!b)
  | op, e => .unary op e

mutual

/-- A formula with its constant parts computed; `none` when one of them divides
an integer by zero. -/
def fold : Formula → Option Formula
  | .unary op e => (fold e).map (foldUnary op)
  | .binary op l r => do foldBinary op (← fold l) (← fold r)
  | .choose c y n => do return .choose (← fold c) (← fold y) (← fold n)
  | .list es => (foldAll es).map .list
  | .index e i => do return .index (← fold e) (← fold i)
  | .field e f => (fold e).map (.field · f)
  | .builtin f es => (foldAll es).map (.builtin f)
  | .call n es => (foldAll es).map (.call n)
  | .seq a b => do return .seq (← fold a) (← fold b)
  | e => some e

def foldAll : List Formula → Option (List Formula)
  | [] => some []
  | e :: es => do return (← fold e) :: (← foldAll es)

end

end EffectChain.Formula
