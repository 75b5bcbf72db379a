import EffectChain.Number.Read

/-!
# EffectChain.Number.Whole

Decimal integers of 64 bits, and doubles taken to whole numbers.
-/

namespace EffectChain.Number

/-- An integer fits 64 bits with its sign. -/
def fits64 (i : Int) : Bool := -0x8000000000000000 ≤ i && i < 0x8000000000000000

/-- A decimal integer of 64 bits, with a sign or without. -/
def whole? (s : String) : Option Int :=
  let (negative, ds) := match s.toList with
    | '-' :: ds => (true, ds)
    | '+' :: ds => (false, ds)
    | ds => (false, ds)
  if ds.isEmpty || !ds.all isDigit then none
  else
    let n : Int := digitsValue 10 (ds.map digitValue)
    let i := if negative then -n else n
    if fits64 i then some i else none

/-- The base of an integer and its digits: a mark after a zero names the base, and a
zero alone the base eight. -/
def basedDigits : List Char → Nat × List Char
  | '0' :: m :: d :: ds =>
    match lowerLetter m with
    | 'b' => (2, d :: ds)
    | 'o' => (8, d :: ds)
    | 'x' => (16, d :: ds)
    | _ => (8, m :: d :: ds)
  | '0' :: ds => (8, ds)
  | ds => (10, ds)

/-- The value of a digit or letter. -/
def anyDigit (c : Char) : Nat := if isHexDigit c then hexDigitValue c else 16

/-- An integer of 64 bits in any base, with underscores between its digits. -/
def wholeBased? (s : String) : Option Int :=
  let (negative, cs) := match s.toList with
    | '-' :: cs => (true, cs)
    | '+' :: cs => (false, cs)
    | cs => (false, cs)
  let (base, ds) := basedDigits cs
  let values := (ds.filter (· ≠ '_')).map anyDigit
  if cs.isEmpty || !values.all (· < base) ||
      (cs.contains '_' && !underscoresFit (base = 16) (if base = 10 then .start else .digit) ds)
        then none
  else
    let n : Int := digitsValue base values
    let i := if negative then -n else n
    if fits64 i then some i else none

/-- An integer taken into the range of 64 bits with a sign, around which it wraps. -/
def wrap64 (i : Int) : Int := Int.bmod i 0x10000000000000000

/-- The integer part of a finite number. -/
def integerPart (x : Float) : Int :=
  let p := Parts.of x
  let n : Nat := match p.exponent with
    | .ofNat k => p.mantissa * Nat.pow 2 k
    | .negSucc k => p.mantissa / Nat.pow 2 (k + 1)
  if isNegative x then -(n : Int) else n

/-- The integer part as an integer of 64 bits; what does not fit is the least one. -/
def toInt64 (x : Float) : Int :=
  if isFinite x && fits64 (integerPart x) then integerPart x else -0x8000000000000000

/-- The nearest whole number, halfway the one further from zero.  A double without places after
the point is whole, as is what is not finite. -/
def round (x : Float) : Float :=
  let p := Parts.of x
  match p.exponent with
  | .ofNat _ => x
  | .negSucc k =>
    let n : Nat := (2 * p.mantissa + Nat.pow 2 (k + 1)) / Nat.pow 2 (k + 2)
    if isNegative x then -ofInt n else ofInt n

end EffectChain.Number
