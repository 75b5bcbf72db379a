import EffectChain.Document.Basic
import EffectChain.Text.Quoted
import EffectChain.Value.Dynamic

/-!
# EffectChain.Value.Basic

The values of arguments after checking: constants, surfaces and values that
change from frame to frame.
-/

namespace EffectChain

/-- The value of an argument. -/
inductive Value where
  | scalar (value : Float)
  | boolean (value : Bool)
  | text (value : Bytes)
  /-- A color or a vector; a color that was written in hex keeps its digits. -/
  | vector (components : List Float) (literal : String)
  | ref (surface : Surface)
  | dynamic (value : Dynamic)
  deriving Repr, Inhabited

namespace Value

/-- The value in a frame. -/
def eval (v : Value) (env : Env) : Datum :=
  match v with
  | .scalar x => .float x
  | .boolean b => .bool b
  | .text s => .text (Bytes.toString s)
  | .vector xs _ => .list (xs.map .float)
  | .ref s => .surface s
  | .dynamic d => d.eval env

/-- A vector as a call. -/
def vectorText (xs : List Float) : String :=
  "vec" ++ toString xs.length ++ "(" ++ ", ".intercalate (xs.map Number.brief) ++ ")"

/-- The value as listings write it. -/
def shown (v : Value) : String :=
  match v with
  | .scalar x => Number.plain x
  | .boolean b => if b then "true" else "false"
  | .text s => Text.quoteBytes s
  | .vector xs literal => if literal = "" then vectorText xs else literal
  | .ref s => s.name
  | .dynamic d => d.text

end Value

/-- The plain value a document stands for; maps count as lists without elements. -/
def Document.toDatum : Document → Datum
  | .null => .null
  | .bool b => .bool b
  | .int i => .int i
  | .float x => .float x
  | .text s => .text s
  | .list _ | .map _ => .list []

/-- The argument value a document stands for: a truth value, a text, a number or a
list of numbers. -/
def Value.ofDocument? : Document → Option Value
  | .bool b => some (.boolean b)
  | .text s => some (.text (.ofString s))
  | .list xs => (xs.mapM fun (d : Document) => d.toDatum.number?).map (.vector · "")
  | d => d.toDatum.number?.map .scalar

end EffectChain
