import EffectChain.Number.Read
import EffectChain.Text.Basic
import EffectChain.Text.Utf8

/-!
# EffectChain.Formula.Token

The words of formulas: numbers, texts, names and signs.
-/

namespace EffectChain.Formula

inductive Token where
  | number (text : String)
  | text (value : String)
  | name (name : String)
  | sign (sign : String)
  deriving DecidableEq, Repr, Inhabited

namespace Lexer

def isNameChar (c : Char) : Bool := c = '_' || c = '$' || c.isAlpha || c.isDigit || 0xAA ≤ c.toNat

/-- Words that are operators. -/
def wordSigns : List String :=
  ["not", "in", "or", "and", "matches", "contains", "startsWith", "endsWith", "let", "if", "else"]

/-- The digits of a number whose first ones tell its base. -/
def digitTest : List Char → (Char → Bool) × Nat
  | '0' :: c :: _ =>
    if c = 'x' || c = 'X' then (fun d => Number.isHexDigit d || d = '_', 2)
    else if c = 'o' || c = 'O' then (fun d => ('0' ≤ d && d ≤ '7') || d = '_', 2)
    else if c = 'b' || c = 'B' then (fun d => d = '0' || d = '1' || d = '_', 2)
    else (fun d => Number.isDigit d || d = '_', 0)
  | _ => (fun d => Number.isDigit d || d = '_', 0)

/-- How long the run of `p` at the front is. -/
def run (p : Char → Bool) (cs : List Char) : Nat := (cs.takeWhile p).length

/-- The length of a number at the front; a point before a second point is not
part of it. -/
def numberLength? (cs : List Char) : Option Nat :=
  let (p, lead) := digitTest cs
  let whole := lead + run p (cs.drop lead)
  let after := cs.drop whole
  match after with
  | '.' :: '.' :: _ => some whole
  | _ =>
    let fraction := match after with
      | '.' :: ds => 1 + run p ds
      | _ => 0
    let rest := after.drop fraction
    let power := match rest with
      | e :: ds =>
        if e = 'e' || e = 'E' then
          match ds with
          | s :: more => if s = '+' || s = '-' then 2 + run p more else 1 + run p ds
          | [] => 1
        else 0
      | [] => 0
    if (rest.drop power).head?.any isNameChar then none
    else some (whole + fraction + power)

def simpleEscape? : Char → Option Char
  | 'a' => some '\x07'
  | 'b' => some '\x08'
  | 'f' => some '\x0c'
  | 'n' => some '\n'
  | 'r' => some '\r'
  | 't' => some '\t'
  | 'v' => some '\x0b'
  | '\\' => some '\\'
  | _ => none

/-- The character of `n` digits to the base `base`, and what is after them. -/
def codeEscape? (base n : Nat) (cs : List Char) : Option (Char × List Char) :=
  let ds := cs.take n
  if ds.length = n && ds.all (fun c => Number.isHexDigit c && Number.hexDigitValue c < base) then
    some (Char.ofNat (Number.digitsValue base (ds.map Number.hexDigitValue)), cs.drop n)
  else none

/-- A text up to its quote, and its length with the quote.  The fuel is the
number of characters. -/
def quoted? (quote : Char) : (fuel : Nat) → List Char → List Char → Option (List Char × List Char)
  | 0, _, _ => none
  | _ + 1, _, [] => none
  | fuel + 1, acc, '\\' :: cs =>
    match cs with
    | 'x' :: r => (codeEscape? 16 2 r).bind fun (c, r) => quoted? quote fuel (c :: acc) r
    | 'u' :: r => (codeEscape? 16 4 r).bind fun (c, r) => quoted? quote fuel (c :: acc) r
    | 'U' :: r => (codeEscape? 16 8 r).bind fun (c, r) => quoted? quote fuel (c :: acc) r
    | c :: r =>
      if '0' ≤ c && c ≤ '7' then
        (codeEscape? 8 3 cs).bind fun (c, r) => quoted? quote fuel (c :: acc) r
      else if c = quote then quoted? quote fuel (c :: acc) r
      else (simpleEscape? c).bind fun c => quoted? quote fuel (c :: acc) r
    | [] => none
  | fuel + 1, acc, c :: cs =>
    if c = quote then some (acc.reverse, cs)
    else if c = '\n' then none
    else quoted? quote fuel (c :: acc) cs

/-- The sign at the front, which starts with `c`, and its length. -/
def sign? (c : Char) (cs : List Char) : Option String :=
  let second := cs.head?
  let pair := fun (d : Char) => String.ofList [c, d]
  if "([{)]},;%+-^".toList.contains c then some (String.singleton c)
  else if c = '/' then some "/"
  else if c = '|' || c = ':' then some (if second = some c then pair c else String.singleton c)
  else if c = '.' then some (if second = some '.' then ".." else ".")
  else if c = '?' then
    some (match second with
      | some '.' => "?."
      | some '?' => "??"
      | _ => "?")
  else if "&!=*<>".toList.contains c then
    some (match second with
      | some d => if "&=*".toList.contains d then pair d else String.singleton c
      | none => String.singleton c)
  else none

/-- What is after a block comment. -/
def afterComment? : List Char → Option (List Char)
  | '*' :: '/' :: cs => some cs
  | _ :: cs => afterComment? cs
  | [] => none

/-- The tokens of a text; the fuel is one more than its length, which every step
takes from. -/
def tokens? : (fuel : Nat) → List Char → Option (List Token)
  | _, [] => some []
  | 0, _ => none
  | fuel + 1, c :: cs =>
    if Text.isSpace c then tokens? fuel cs
    else if c = '\'' || c = '"' then do
      let (s, rest) ← quoted? c (cs.length + 1) [] cs
      return .text (String.ofList s) :: (← tokens? fuel rest)
    else if c = '`' then
      match cs.dropWhile (· ≠ '`') with
      | _ :: rest => do
        return .text (String.ofList (cs.takeWhile (· ≠ '`'))) :: (← tokens? fuel rest)
      | [] => none
    else if Number.isDigit c || (c = '.' && cs.head?.any Number.isDigit) then do
      let size ← if c = '.' then (numberLength? cs).map (· + 1) else numberLength? (c :: cs)
      return .number (String.ofList ((c :: cs).take size)) :: (← tokens? fuel ((c :: cs).drop size))
    else if c = '/' && cs.head? = some '/' then tokens? fuel (cs.dropWhile (· ≠ '\n'))
    else if c = '/' && cs.head? = some '*' then
      (afterComment? (cs.drop 1)).bind fun rest => tokens? fuel rest
    else if isNameChar c then do
      let word := String.ofList ((c :: cs).takeWhile isNameChar)
      let more ← tokens? fuel ((c :: cs).dropWhile isNameChar)
      return (if wordSigns.contains word then .sign word else .name word) :: more
    else do
      let s ← sign? c cs
      return .sign s :: (← tokens? fuel ((c :: cs).drop s.length))

end Lexer

/-- The tokens of a text, if it has only such. -/
def Token.scan? (s : String) : Option (List Token) := Lexer.tokens? (s.length + 1) s.toList

end EffectChain.Formula
