import EffectChain.Number.Shortest

/-!
# EffectChain.Number.Format

How a double is written.

* `plain` never uses an exponent: source text and canonical text;
* `general` uses an exponent below 10^-4 and from 10^6 on: messages and values;
* `interchange` uses one below 10^-6 and from 10^21 on: structured documents;
* `scientific` has a fixed number of places.

All but the last write the fewest digits that read back.
-/

namespace EffectChain.Number

/-- A digit as a character. -/
def digitChar (d : Nat) : Char := Char.ofNat (48 + d)

def digitText (ds : List Nat) : String := String.ofList (ds.map digitChar)

/-- The texts of the doubles that have no digits. -/
def nonFinite (x : Float) : String :=
  if isNotANumber x then "NaN" else if isNegative x then "-Inf" else "+Inf"

def signText (x : Float) : String := if isNegative x then "-" else ""

/-- Digits around a decimal point, without an exponent. -/
def positional (d : Digits) : String :=
  if d.digits.isEmpty then "0"
  else match d.point with
    | .ofNat p =>
      if p = 0 then "0." ++ digitText d.digits
      else
        let whole := d.digits.take p
        let rest := d.digits.drop p
        let whole := whole ++ List.replicate (p - whole.length) 0
        if rest.isEmpty then digitText whole else digitText whole ++ "." ++ digitText rest
    | .negSucc p => "0." ++ digitText (List.replicate (p + 1) 0) ++ digitText d.digits

/-- An exponent with its sign and at least `width` digits. -/
def exponentText (width : Nat) (e : Int) : String :=
  let ds := decimalDigits e.natAbs
  (if e < 0 then "e-" else "e+") ++ digitText (List.replicate (width - ds.length) 0 ++ ds)

/-- One digit before the point and an exponent. -/
def exponential (width : Nat) (d : Digits) : String :=
  match d.digits with
  | [] => "0" ++ exponentText width 0
  | [a] => digitText [a] ++ exponentText width (d.point - 1)
  | a :: rest => digitText [a] ++ "." ++ digitText rest ++ exponentText width (d.point - 1)

/-- The fewest digits that read back, without an exponent. -/
def plain (x : Float) : String :=
  if isFinite x then signText x ++ positional (shortest (Parts.of x)) else nonFinite x

/-- The fewest digits that read back, with an exponent when the decimal exponent
is outside `[low, high)`; the exponent has at least `width` digits. -/
def ranged (low high : Int) (width : Nat) (x : Float) : String :=
  if isFinite x then
    let d := shortest (Parts.of x)
    let e := d.point - 1
    signText x ++
      (if !d.digits.isEmpty && (e < low || high ≤ e) then exponential width d else positional d)
  else nonFinite x

/-- The text of a number in messages and values. -/
def general (x : Float) : String := ranged (-4) 6 2 x

/-- The text of a number in structured documents. -/
def interchange (x : Float) : String := ranged (-6) 21 1 x

/-- One digit, the point, `places` digits and an exponent of at least two digits. -/
def scientific (places : Nat) (x : Float) : String :=
  if isFinite x then signText x ++ exponential 2 (rounded places (Parts.of x)) else nonFinite x

/-- The text with `places` places after the decimal point. -/
def fixed (places : Nat) (x : Float) : String :=
  if isFinite x then
    let n := fixedPlaces places (Parts.of x)
    let whole := n / Nat.pow 10 places
    let ds := decimalDigits (n % Nat.pow 10 places)
    let frac := List.replicate (places - ds.length) 0 ++ ds
    signText x ++ digitText (decimalDigits whole) ++
      (if places = 0 then "" else "." ++ digitText frac)
  else nonFinite x

end EffectChain.Number
