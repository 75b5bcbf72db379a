import EffectChain.Number.Binary

/-!
# EffectChain.Number.Read

Reading a number from text: an optional sign, decimal or hexadecimal digits with
an optional fraction and exponent, underscores between digits, or the words for
infinity and not-a-number.  The result is the double nearest to the written
value; a value too large for a double is an error of its own.
-/

namespace EffectChain.Number

/-- Why a text is not a number. -/
inductive ReadError where
  | malformed
  | tooLarge (negative : Bool)
  deriving DecidableEq, Repr, Inhabited

def isDigit (c : Char) : Bool := '0' ≤ c && c ≤ '9'

def digitValue (c : Char) : Nat := c.toNat - 48

def isHexDigit (c : Char) : Bool :=
  isDigit c || ('a' ≤ c && c ≤ 'f') || ('A' ≤ c && c ≤ 'F')

def hexDigitValue (c : Char) : Nat :=
  if isDigit c then c.toNat - 48
  else if 'a' ≤ c && c ≤ 'f' then c.toNat - 87
  else c.toNat - 55

/-- The value of a run of digits in the given base. -/
def digitsValue (base : Nat) (ds : List Nat) : Nat := ds.foldl (fun n d => n * base + d) 0

/-- An upper-case letter as its lower-case one. -/
def lowerLetter (c : Char) : Char := if 'A' ≤ c && c ≤ 'Z' then Char.ofNat (c.toNat + 32) else c

/-- What stands before an underscore while a number is checked. -/
inductive UnderscoreSide where
  | start
  | digit
  | underscore
  | other
  deriving DecidableEq, Repr

/-- Every underscore stands between two digits, or between the base mark and a digit. -/
def underscoresFit (hex : Bool) : UnderscoreSide → List Char → Bool
  | side, [] => side ≠ .underscore
  | side, c :: cs =>
    if isDigit c || (hex && isHexDigit c) then underscoresFit hex .digit cs
    else if c = '_' then side = .digit && underscoresFit hex .underscore cs
    else side ≠ .underscore && underscoresFit hex .other cs

/-- The digits before and after the point of a number, underscores left out. -/
structure Mantissa where
  whole : List Char
  frac : List Char
  deriving Repr

/-- Splits the digits of a number from the rest of its text. -/
def splitMantissa (isDig : Char → Bool) (cs : List Char) : Mantissa × List Char :=
  let inside := fun c => isDig c || c = '_'
  let whole := cs.takeWhile inside
  match cs.dropWhile inside with
  | '.' :: rest =>
      (⟨whole.filter isDig, (rest.takeWhile inside).filter isDig⟩, rest.dropWhile inside)
  | rest => (⟨whole.filter isDig, []⟩, rest)

/-- An optional exponent after `mark`; an exponent of many digits is cut off. -/
def splitExponent (mark : Char) : List Char → Option (Option Int × List Char)
  | [] => some (none, [])
  | c :: cs =>
    if lowerLetter c ≠ mark then some (none, c :: cs)
    else
      let (negative, ds) := match cs with
        | '+' :: r => (false, r)
        | '-' :: r => (true, r)
        | r => (false, r)
      match ds with
      | d :: _ =>
        if isDigit d then
          let inside := fun c => isDigit c || c = '_'
          let digits := ((ds.takeWhile inside).filter isDigit).map digitValue
          let n : Nat := min (digitsValue 10 digits) 100000
          some (some (if negative then -(n : Int) else n), ds.dropWhile inside)
        else none
      | [] => none

/-- The double nearest to `n · 10^e`; the digits of `n` bound the powers needed. -/
def ofDecimal? (n : Nat) (e : Int) : Option Float :=
  if n = 0 then some 0
  else
    let size : Int := e + (n.log2 / 3 : Nat) + 1
    if e + (n.log2 / 4 : Nat) > 400 then none
    else if size < -400 then some 0
    else match e with
      | .ofNat k => nearest? (n * Nat.pow 10 k) 1
      | .negSucc k => nearest? n (Nat.pow 10 (k + 1))

/-- The double nearest to `n · 2^e`. -/
def ofBinary? (n : Nat) (e : Int) : Option Float :=
  if n = 0 then some 0
  else if e + (n.log2 : Int) > 1100 then none
  else if e + (n.log2 : Int) < -1200 then some 0
  else match e with
    | .ofNat k => nearest? (n * Nat.pow 2 k) 1
    | .negSucc k => nearest? n (Nat.pow 2 (k + 1))

/-- Reads a number without its sign. -/
def readUnsigned (cs : List Char) : Except ReadError (Option Float) :=
  match cs with
  | '0' :: x :: rest =>
    if lowerLetter x = 'x' then
      let (m, tail) := splitMantissa isHexDigit rest
      if m.whole.isEmpty && m.frac.isEmpty then .error .malformed
      else match splitExponent 'p' tail with
        | some (some e, []) =>
          if cs.contains '_' && !underscoresFit true .digit rest then .error .malformed
          else
            let n := digitsValue 16 ((m.whole ++ m.frac).map hexDigitValue)
            .ok (ofBinary? n (e - 4 * m.frac.length))
        | _ => .error .malformed
    else readDecimal cs
  | _ => readDecimal cs
where
  readDecimal (cs : List Char) : Except ReadError (Option Float) :=
    let (m, tail) := splitMantissa isDigit cs
    if m.whole.isEmpty && m.frac.isEmpty then .error .malformed
    else match splitExponent 'e' tail with
      | some (e, []) =>
        if cs.contains '_' && !underscoresFit false .start cs then .error .malformed
        else
          let n := digitsValue 10 ((m.whole ++ m.frac).map digitValue)
          .ok (ofDecimal? n (e.getD 0 - m.frac.length))
      | _ => .error .malformed

/-- Reads a number from text. -/
def read (s : String) : Except ReadError Float :=
  let cs := s.toList
  let (negative, body) := match cs with
    | '-' :: r => (true, r)
    | '+' :: r => (false, r)
    | r => (false, r)
  let word := String.ofList (body.map lowerLetter)
  if word = "inf" || word = "infinity" then .ok (infinity negative)
  else if word = "nan" && body.length = cs.length then .ok (0 / 0)
  else do
    match ← readUnsigned body with
    | some x => .ok (if negative then -x else x)
    | none => .error (.tooLarge negative)

/-- Reads a number, `none` when the text is not one or is too large. -/
def read? (s : String) : Option Float := (read s).toOption

end EffectChain.Number
