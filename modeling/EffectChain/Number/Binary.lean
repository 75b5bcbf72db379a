/-!
# EffectChain.Number.Binary

The exact value of a double and the double nearest to an exact value.

A finite double is `± mantissa · 2^exponent`; `Parts.of` takes it apart and
`nearest` finds the double closest to a quotient of natural numbers, a tie going
to the even mantissa.  All arithmetic is on natural numbers, so both directions
are exact.
-/

namespace EffectChain.Number

/-- The size of a finite double, `mantissa · 2^exponent`. -/
structure Parts where
  mantissa : Nat
  exponent : Int
  deriving DecidableEq, Repr, Inhabited

/-- The sign bit. -/
def isNegative (x : Float) : Bool := x.toBits >>> 63 = 1

/-- The eleven bits that hold the exponent. -/
def exponentField (x : Float) : Nat := ((x.toBits >>> 52) &&& 0x7FF).toNat

/-- The fifty-two bits that hold the fraction. -/
def fractionField (x : Float) : Nat := (x.toBits &&& 0xFFFFFFFFFFFFF).toNat

/-- Neither infinite nor not-a-number. -/
def isFinite (x : Float) : Bool := exponentField x < 0x7FF

def isNotANumber (x : Float) : Bool := exponentField x = 0x7FF && fractionField x ≠ 0

/-- The exponent of the smallest positive double. -/
def minExponent : Int := -1074

/-- The size of a finite double; the sign is apart. -/
def Parts.of (x : Float) : Parts :=
  match exponentField x with
  | 0 => ⟨fractionField x, minExponent⟩
  | e + 1 => ⟨0x10000000000000 + fractionField x, minExponent + e⟩

/-- The quotient rounded to the nearest natural number, a half to the even one. -/
def roundQuotient (num den : Nat) : Nat :=
  let q := num / den
  let r := num % den
  if den < 2 * r || (2 * r = den && q % 2 = 1) then q + 1 else q

/-- The quotient `num / (den · 2^e)` as a pair. -/
def scale (num den : Nat) (e : Int) : Nat × Nat :=
  match e with
  | .ofNat k => (num, den * Nat.pow 2 k)
  | .negSucc k => (num * Nat.pow 2 (k + 1), den)

/-- The double with the given size, `none` when it is too large. -/
def Parts.toFloat? (p : Parts) : Option Float :=
  if p.mantissa < 0x10000000000000 then some (Float.ofBits p.mantissa.toUInt64)
  else
    let field := (p.exponent - minExponent + 1).toNat
    if field < 0x7FF
      then some (Float.ofBits (field * 0x10000000000000 + (p.mantissa - 0x10000000000000)).toUInt64)
    else none

/-- The exponent of the double nearest to a positive quotient before rounding: with it the integer
part of the mantissa has fifty-three bits, unless it is the least one. -/
def unitExponent (num den : Nat) : Int :=
  let guess : Int := (num.log2 : Int) - den.log2 - 52
  let units := scale num den guess
  max (if units.1 < units.2 * 0x10000000000000 then guess - 1 else guess) minExponent

/-- The double nearest to `num / den`, `none` when it is too large. -/
def nearest? (num den : Nat) : Option Float :=
  if num = 0 || den = 0 then some 0
  else
    let e := unitExponent num den
    let units := scale num den e
    let m := roundQuotient units.1 units.2
    if m = 0x20000000000000 then Parts.toFloat? ⟨0x10000000000000, e + 1⟩ else Parts.toFloat? ⟨m, e⟩

/-- The infinity of the given sign. -/
def infinity (negative : Bool) : Float :=
  Float.ofBits (if negative then 0xFFF0000000000000 else 0x7FF0000000000000)

/-- The double nearest to an integer; every integer that fits sixty-four bits has one. -/
def ofInt (i : Int) : Float :=
  match i with
  | .ofNat n => (nearest? n 1).getD (infinity false)
  | .negSucc n => -((nearest? (n + 1) 1).getD (infinity false))

end EffectChain.Number
