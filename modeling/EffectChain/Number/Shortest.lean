import EffectChain.Number.Binary

/-!
# EffectChain.Number.Shortest

Decimal digits of a double.

* `shortest` gives the fewest digits that read back as the same double, and of
  those the ones nearest to its value;
* `rounded` gives a chosen number of digits after the leading one.

Both are exact: the value and the ends of the interval of reals that round to it
are quotients of natural numbers.
-/

namespace EffectChain.Number

/-- The value `0.d₁d₂… · 10^point`; zero has no digits. -/
structure Digits where
  digits : List Nat
  point : Int
  deriving DecidableEq, Repr, Inhabited

/-- The decimal digits of a natural number, most significant first. -/
def decimalDigits (n : Nat) : List Nat :=
  (Nat.toDigits 10 n).map fun c => c.toNat - 48

/-- Drops the zeros at the end. -/
def trimZeros (ds : List Nat) : List Nat :=
  (ds.reverse.dropWhile (· = 0)).reverse

/-- `num / den` against `10^k`: whether it is smaller. -/
def belowPowerOfTen (num den : Nat) (k : Int) : Bool :=
  match k with
  | .ofNat k => num < den * Nat.pow 10 k
  | .negSucc k => num * Nat.pow 10 (k + 1) < den

/-- The position of the decimal point of a positive quotient: the least `k` with
`num / den < 10^k`.  The binary logarithm gives it up to two places. -/
def decimalPoint (num den : Nat) : Int :=
  let guess := ((num.log2 : Int) - den.log2 - 1) * 30103 / 100000
  if belowPowerOfTen num den guess then guess
  else if belowPowerOfTen num den (guess + 1) then guess + 1
  else if belowPowerOfTen num den (guess + 2) then guess + 2
  else guess + 3

/-- The quotient scaled so that its integer part has the digits up to `10^-k`. -/
def scaleTen (num den : Nat) (k : Int) : Nat × Nat :=
  match k with
  | .ofNat k => (num * Nat.pow 10 k, den)
  | .negSucc k => (num, den * Nat.pow 10 (k + 1))

/-- The reals that round to a double, in units of a quarter of its last place:
its value and the two ends, which belong to it when the mantissa is even. -/
structure Interval where
  low : Nat
  value : Nat
  high : Nat
  unit : Int
  closed : Bool
  deriving DecidableEq, Repr, Inhabited

/-- The interval of a positive finite double. -/
def Interval.of (p : Parts) : Interval :=
  let narrow := p.mantissa = 0x10000000000000 && p.exponent ≠ minExponent
  { low := 4 * p.mantissa - (if narrow then 1 else 2)
    value := 4 * p.mantissa
    high := 4 * p.mantissa + 2
    unit := p.exponent - 2
    closed := p.mantissa % 2 = 0 }

/-- The grid point `g · 10^k` lies in the interval. -/
def Interval.contains (i : Interval) (g : Nat) (k : Int) : Bool :=
  let (n, d) := scaleTen g 1 k
  -- compare n / d with bound · 2^unit
  let (n, d) := scale n d i.unit
  if i.closed then i.low * d ≤ n && n ≤ i.high * d
  else i.low * d < n && n < i.high * d

/-- The shortest grid with a point in the interval, tried from `count` digits on;
seventeen digits always do. -/
def shortestFrom (i : Interval) (num den : Nat) (point : Int) : (fuel count : Nat) → Nat × Nat
  | 0, count =>
      (roundQuotient (scaleTen num den (count - point)).1 (scaleTen num den (count - point)).2,
      count)
  | fuel + 1, count =>
    let (n, d) := scaleTen num den (count - point)
    let below := n / d
    let hitBelow := i.contains below (point - count)
    let hitAbove := i.contains (below + 1) (point - count)
    if hitBelow && hitAbove then (roundQuotient n d, count)
    else if hitBelow then (below, count)
    else if hitAbove then (below + 1, count)
    else shortestFrom i num den point fuel (count + 1)

/-- Digits from an integer on the grid `10^-(count - point)`. -/
def Digits.ofGrid (g count : Nat) (point : Int) : Digits :=
  let ds := decimalDigits g
  ⟨trimZeros ds, point + ((ds.length : Int) - count)⟩

/-- The exact quotient of a double's size. -/
def Parts.quotient (p : Parts) : Nat × Nat := scale p.mantissa 1 (-p.exponent)

/-- The fewest digits that read back as the double of this size. -/
def shortest (p : Parts) : Digits :=
  if p.mantissa = 0 then ⟨[], 0⟩
  else
    let (num, den) := p.quotient
    let point := decimalPoint num den
    let (g, count) := shortestFrom (Interval.of p) num den point 17 1
    Digits.ofGrid g count point

/-- The digits of a double with `places` digits after the leading one, a tie
going to the even digit; zeros are kept. -/
def rounded (places : Nat) (p : Parts) : Digits :=
  if p.mantissa = 0 then ⟨List.replicate (places + 1) 0, 1⟩
  else
    let (num, den) := p.quotient
    let point := decimalPoint num den
    let (n, d) := scaleTen num den ((places + 1 : Nat) - point)
    let g := roundQuotient n d
    let ds := decimalDigits g
    ⟨ds.take (places + 1), point + ((ds.length : Int) - (places + 1 : Nat))⟩

/-- The digits of a double up to `places` places after the decimal point. -/
def fixedPlaces (places : Nat) (p : Parts) : Nat :=
  let (num, den) := p.quotient
  roundQuotient (num * Nat.pow 10 places) den

end EffectChain.Number
