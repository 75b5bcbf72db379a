import EffectChain.Number.Read
import EffectChain.Text.Quoted

/-!
# EffectChain.Number.Duration

Spans of time in nanoseconds, written by hours, minutes and seconds and read from
any units.
-/

namespace EffectChain.Duration

/-! ## writing -/

/-- The last `places` digits of `n` behind a point, without zeros at the end. -/
def fractionText (places n : Nat) : String :=
  let ds := (toString (n % Nat.pow 10 places)).toList
  let ds := List.replicate (places - ds.length) '0' ++ ds
  match (ds.reverse.dropWhile (· = '0')).reverse with
  | [] => ""
  | ds => "." ++ String.ofList ds

/-- A number of units of `10 ^ places`. -/
def unitText (places n : Nat) (unit : String) : String :=
  toString (n / Nat.pow 10 places) ++ (if places = 0 then "" else fractionText places n) ++ unit

/-- A span that is not negative: below a second in the unit that fits, else by
hours, minutes and seconds. -/
def spanText (n : Nat) : String :=
  if n = 0 then "0s"
  else if n < 1000 then unitText 0 n "ns"
  else if n < 1000000 then unitText 3 n "µs"
  else if n < 1000000000 then unitText 6 n "ms"
  else
    let minutes := n / 60000000000
    (if minutes ≥ 60 then toString (minutes / 60) ++ "h" else "") ++
      (if minutes > 0 then toString (minutes % 60) ++ "m" else "") ++
      unitText 9 (n % 60000000000) "s"

/-- A span in nanoseconds. -/
def text (ns : Int) : String := (if ns < 0 then "-" else "") ++ spanText ns.natAbs

/-! ## reading -/

/-- Why a text is no span. -/
inductive Fault where
  | invalid
  | missingUnit
  | unknownUnit (unit : String)
  deriving DecidableEq, Repr, Inhabited

def Fault.message (text : String) : Fault → String
  | .invalid => "time: invalid duration " ++ Text.quote text
  | .missingUnit => "time: missing unit in duration " ++ Text.quote text
  | .unknownUnit u => "time: unknown unit " ++ Text.quote u ++ " in duration " ++ Text.quote text

/-- The nanoseconds of a unit. -/
def unit? : String → Option Nat
  | "ns" => some 1
  | "us" | "µs" | "μs" => some 1000
  | "ms" => some 1000000
  | "s" => some 1000000000
  | "m" => some 60000000000
  | "h" => some 3600000000000
  | _ => none

/-- The largest span. -/
def limit : Nat := 0x8000000000000000

/-- The numbers with units of a span, added up. -/
def readParts : (fuel : Nat) → (sum : Nat) → List Char → Except Fault Nat
  | _, sum, [] => .ok sum
  | 0, _, _ => .error .invalid
  | fuel + 1, sum, cs =>
    let whole := cs.takeWhile Number.isDigit
    let rest := cs.dropWhile Number.isDigit
    let (frac, rest) := match rest with
      | '.' :: r => (r.takeWhile Number.isDigit, r.dropWhile Number.isDigit)
      | r => ([], r)
    if whole.isEmpty && frac.isEmpty then .error .invalid
    else
      let isUnit := fun c => c ≠ '.' && !Number.isDigit c
      let word := String.ofList (rest.takeWhile isUnit)
      if Number.digitsValue 10 (whole.map Number.digitValue) > limit then .error .invalid
      else if word = "" then .error .missingUnit
      else match unit? word with
        | none => .error (.unknownUnit word)
        | some u =>
          let n := Number.digitsValue 10 (whole.map Number.digitValue) * u
          let f := Number.digitsValue 10 (frac.map Number.digitValue) * u / Nat.pow 10 frac.length
          if sum + n + f > limit then .error .invalid
          else readParts fuel (sum + n + f) (rest.dropWhile isUnit)

/-- Reads a span with or without a sign. -/
def read (s : String) : Except Fault Int :=
  let (negative, cs) := match s.toList with
    | '-' :: r => (true, r)
    | '+' :: r => (false, r)
    | r => (false, r)
  if cs = ['0'] then .ok 0
  else if cs.isEmpty then .error .invalid
  else do
    let n ← readParts cs.length 0 cs
    if negative then .ok (-n) else if n ≥ limit then .error .invalid else .ok n

end EffectChain.Duration
