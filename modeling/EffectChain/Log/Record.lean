import EffectChain.Number.Duration
import EffectChain.Number.Format
import EffectChain.Number.Whole
import EffectChain.Text.Basic

/-!
# EffectChain.Log.Record

What a record is made of: how grave it is, and the named values that go with it.

A level is a number: the named levels are four apart, and the numbers between them are
written as the named level below with an offset.  A group is a list of named values; groups
without members do not exist inside groups.  A failure is shown as the group of its message
and its own values.
-/

namespace EffectChain.Log

/-! ## levels and formats -/

/-- How grave a record is. -/
structure Level where
  severity : Int := 0
  deriving DecidableEq, Repr, Inhabited

namespace Level

def trace : Level := ⟨-8⟩
def debug : Level := ⟨-4⟩
def info : Level := ⟨0⟩
def warn : Level := ⟨4⟩
def error : Level := ⟨8⟩

/-- The named levels, the least grave first. -/
def named : List (String × Level) :=
  [("trace", trace), ("debug", debug), ("info", info), ("warn", warn), ("error", error)]

/-- A name with the distance from its level. -/
def offset (name : String) (distance : Int) : String :=
  if distance = 0 then name
  else name ++ (if distance < 0 then "-" else "+") ++ toString distance.natAbs

/-- The name of a level. -/
def name (l : Level) : String :=
  if l = trace then "trace"
  else if l.severity < 0 then offset "debug" (l.severity - debug.severity)
  else if l.severity < 4 then offset "info" l.severity
  else if l.severity < 8 then offset "warn" (l.severity - warn.severity)
  else offset "error" (l.severity - error.severity)

/-- A named level with an offset that has its sign; `trace` takes none. -/
def withOffset? (s : String) : Option Level :=
  let cs := s.toList
  let word := Text.lower (String.ofList (cs.takeWhile fun c => c ≠ '+' && c ≠ '-'))
  let rest := cs.dropWhile fun c => c ≠ '+' && c ≠ '-'
  if word = "trace" then none
  else do
    let l ← named.lookup word
    let k ← if rest.isEmpty then some 0 else Number.whole? (String.ofList rest)
    return ⟨Number.wrap64 (l.severity + k)⟩

/-- The level a text names; a text that names none means `info`. -/
def ofText (s : String) : Level :=
  if Text.lower (Text.trimSpace s) = "trace" then trace else (withOffset? s).getD info

end Level

/-- The two formats of records. -/
inductive Format where
  | text
  | json
  deriving DecidableEq, Repr, Inhabited

namespace Format

def name : Format → String
  | .text => "text"
  | .json => "json"

/-- The format a text names; a text that names none means `json`. -/
def ofText (s : String) : Format :=
  if Text.lower (Text.trimSpace s) = "text" then .text else .json

end Format

/-! ## values -/

/-- A value of a record. -/
inductive Value where
  | missing
  | text (value : String)
  | int (value : Int)
  | float (value : Float)
  | bool (value : Bool)
  | duration (ns : Int)
  | group (members : List (String × Value))
  | failure (message : String) (members : List (String × Value))
  deriving Repr, Inhabited

/-- A named value. -/
abbrev Attr := String × Value

namespace Value

def isEmptyGroup : Value → Bool
  | .group [] => true
  | _ => false

/-- Named values but for the groups without members. -/
def solid (as : List Attr) : List Attr := as.filter fun a => !a.2.isEmptyGroup

/-- A group of values. -/
def ofMembers (as : List Attr) : Value := .group (solid as)

/-- A failure as a group, any other value as it is. -/
def resolve : Value → Value
  | .failure m as => ofMembers ((if m = "" then [] else [("error", .text m)]) ++ as)
  | v => v

mutual

/-- The text of a value: a group between brackets, a failure by its message. -/
def shown : Value → String
  | .missing => "<nil>"
  | .text s => s
  | .int i => toString i
  | .float x => Number.general x
  | .bool b => if b then "true" else "false"
  | .duration ns => Duration.text ns
  | .group as => "[" ++ " ".intercalate (shownMembers as) ++ "]"
  | .failure m _ => m

def shownMembers : List Attr → List String
  | [] => []
  | (k, v) :: as => (k ++ "=" ++ v.shown) :: shownMembers as

end

mutual

/-- A value without failures: they are groups, inside groups too. -/
def settled : Value → Value
  | .group as => .group (settledMembers as)
  | .failure m as => .group ((if m = "" then [] else [("error", .text m)]) ++ settledMembers as)
  | v => v

/-- Settled values but for the groups without members. -/
def settledMembers : List Attr → List Attr
  | [] => []
  | (k, v) :: as =>
      if v.isEmptyGroup then settledMembers as else (k, v.settled) :: settledMembers as

end

end Value

/-- The value that stands for nothing: it has no name either. -/
def Attr.isEmpty (a : Attr) : Bool :=
  a.1 = "" && (match a.2 with
    | .missing => true
    | _ => false)

end EffectChain.Log
