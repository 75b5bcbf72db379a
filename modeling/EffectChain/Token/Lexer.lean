import EffectChain.Source.Error
import EffectChain.Text.Basic

/-!
# EffectChain.Token.Lexer

Splitting a source text into tokens.

The text is read from left to right.  At each place stands either a gap (a
blank or a comment), which is passed over, or a token; both take at least one
byte, and the place after them is the place before moved over their text.
`Token.scan` ends with a token of kind `endOfInput`.
-/

namespace EffectChain

namespace Lexer

/-! ## characters -/

def isDigit (c : Char) : Bool := '0' ≤ c && c ≤ '9'

def isHex (c : Char) : Bool := isDigit c || ('a' ≤ c && c ≤ 'f') || ('A' ≤ c && c ≤ 'F')

def isNameStart (c : Char) : Bool := c = '_' || ('a' ≤ c && c ≤ 'z') || ('A' ≤ c && c ≤ 'Z')

def isNamePart (c : Char) : Bool := isNameStart c || isDigit c

/-- A blank inside the head of a closure. -/
def isBlank (b : UInt8) : Bool := b = 32 || b = 9

/-- The length of the run of bytes at the front that satisfy `p`. -/
def runLength (p : Char → Bool) (bs : Bytes) : Nat :=
  (bs.takeWhile fun b => p (Char.ofUInt8 b)).length

/-- The first byte, read as a character, satisfies `p`. -/
def startsWith (p : Char → Bool) : Bytes → Bool
  | [] => false
  | b :: _ => p (Char.ofUInt8 b)

/-! ## gaps -/

/-- The length of a color literal's digits, zero when the text after the number
sign is no color and so starts a comment. -/
def colorDigits (bs : Bytes) : Nat :=
  let n := runLength isHex bs
  if (n = 3 || n = 6 || n = 8) && !startsWith isNamePart (bs.drop n) then n else 0

/-- The length of a text up to the end of its line. -/
def lineLength (bs : Bytes) : Nat := (bs.takeWhile (· ≠ 10)).length

/-- The length of a block comment after its opening, with its end; `none` when it
has no end. -/
def commentLength : Bytes → Option Nat
  | [] => none
  | b :: bs =>
    if b = 42 && startsWith (· = '/') bs then some 2
    else (commentLength bs).map (· + 1)

/-- The gap that starts with byte `b`: how many bytes it has after the first. -/
def gap (b : UInt8) (bs : Bytes) : Except SyntaxCause (Option Nat) :=
  match Char.ofUInt8 b with
  | ' ' | '\t' | '\r' | '\n' => .ok (some 0)
  | '#' => .ok (if colorDigits bs = 0 then some (lineLength bs) else none)
  | '/' =>
    match bs with
    | 47 :: _ => .ok (some (lineLength bs))
    | 42 :: rest =>
      match commentLength rest with
      | some n => .ok (some (n + 1))
      | none => .error .unterminatedComment
    | _ => .ok none
  | _ => .ok none

/-! ## tokens -/

/-- A token's kind and lexeme, and how many bytes it has after the first. -/
structure Lexed where
  kind : TokenKind
  lexeme : Bytes
  more : Nat
  deriving DecidableEq, Repr, Inhabited

/-- A token whose lexeme is its text. -/
def Lexed.verbatim (kind : TokenKind) (bs : Bytes) (size : Nat) : Lexed :=
  ⟨kind, bs.take size, size - 1⟩

/-- The length of an exponent at the front, zero when there is none. -/
def exponentLength : Bytes → Nat
  | [] => 0
  | e :: bs =>
    if e = 101 || e = 69 then
      let sign := if startsWith (fun c => c = '+' || c = '-') bs then 1 else 0
      let digits := runLength isDigit (bs.drop sign)
      if digits = 0 then 0 else 1 + sign + digits
    else 0

/-- The length of a fraction at the front, zero when no digit follows the point. -/
def fractionLength : Bytes → Nat
  | 46 :: bs =>
    let digits := runLength isDigit bs
    if digits = 0 then 0 else 1 + digits
  | _ => 0

/-- The length of the number at the front. -/
def numberLength (bs : Bytes) : Nat :=
  let whole := runLength isDigit bs
  let frac := fractionLength (bs.drop whole)
  whole + frac + exponentLength (bs.drop (whole + frac))

/-- The byte an escaped byte stands for. -/
def unescape (e : UInt8) : UInt8 :=
  match Char.ofUInt8 e with
  | 'n' => 10
  | 't' => 9
  | _ => e

/-- The contents of a string after its opening quote and the number of bytes up
to its end; `none` when the string has no end.  A backslash takes the character
after it, and keeps its first byte. -/
def stringBody (quote : UInt8) : Bytes → Option (Bytes × Nat)
  | [] => none
  | b :: bs =>
    if b = quote then some ([], 1)
    else if b = 92 then
      match bs with
      | [] => none
      | e :: es =>
        let width := (Utf8.glyphAt e es).bytes.length
        (stringBody quote ((e :: es).drop width)).map fun (s, n) => (unescape e :: s, n + width + 1)
    else (stringBody quote bs).map fun (s, n) => (b :: s, n + 1)
termination_by bs => bs.length
decreasing_by
  · have := Utf8.length_drop_glyphAt e es
    simp only [List.length_cons] at this ⊢
    omega
  · simp

/-- How many surfaces the language has of each kind. -/
def surfaceLimit? : Char → Option Nat
  | 'o' => some 8
  | 'f' => some 4
  | 's' => some 8
  | _ => none

/-- The surface a word of one letter and one digit names: the letter, the index
and whether there is such a surface. -/
def surfaceWord? : List Char → Option (Char × Nat × Bool)
  | [k, d] =>
    if isDigit d then
      (surfaceLimit? k).map fun limit => (k, d.toNat - 48, d.toNat - 48 < limit)
    else none
  | _ => none

/-- A name, a reserved word or a surface. -/
def name (bs : Bytes) : Except SyntaxCause Lexed :=
  let size := runLength isNamePart bs
  let word := (bs.take size).map Char.ofUInt8
  match surfaceWord? word with
  | some (_, _, true) => .ok (.verbatim .surface bs size)
  | some (_, _, false) => .error (.invalidSurface (String.ofList word))
  | none =>
    .ok (.verbatim (if isKeyword (String.ofList word) then .keyword else .identifier) bs size)

/-- The length of a quoted stretch inside a closure after its opening quote. -/
def quotedLength (quote : UInt8) : Bytes → Nat
  | [] => 0
  | b :: bs =>
    if b = quote then 1
    else if b = 92 then
      match bs with
      | [] => 1
      | _ :: rest => 2 + quotedLength quote rest
    else 1 + quotedLength quote bs

/-- The length of a closure's body: it ends before a comma, a newline, a brace or
a closing bracket outside all brackets. -/
def closureBodyLength (depth : Nat) : Bytes → Nat
  | [] => 0
  | b :: bs =>
    match Char.ofUInt8 b with
    | '{' => if depth = 0 then 0 else 1 + closureBodyLength (depth + 1) bs
    | '(' | '[' => 1 + closureBodyLength (depth + 1) bs
    | ')' | ']' | '}' => if depth = 0 then 0 else 1 + closureBodyLength (depth - 1) bs
    | ',' | '\n' => if depth = 0 then 0 else 1 + closureBodyLength depth bs
    | '"' | '\'' =>
      let n := quotedLength b bs
      1 + n + closureBodyLength depth (bs.drop n)
    | _ => 1 + closureBodyLength depth bs
termination_by bs => bs.length
decreasing_by all_goals simp only [List.length_cons, List.length_drop]; omega

/-- The head of a closure after its opening parenthesis: how many bytes stand
before the body. -/
def closureHead? (bs : Bytes) : Option Nat :=
  let before := (bs.takeWhile isBlank).length
  match bs.drop before with
  | 41 :: rest =>
    let between := (rest.takeWhile isBlank).length
    match rest.drop between with
    | 61 :: 62 :: _ => some (before + 1 + between + 2)
    | _ => none
  | _ => none

/-- The token that starts with byte `b`. -/
def lexeme (b : UInt8) (bs : Bytes) : Except SyntaxCause Lexed :=
  let c := Char.ofUInt8 b
  if c = '#' then .ok (.verbatim .color (b :: bs) (1 + colorDigits bs))
  else if isDigit c || (c = '.' && startsWith isDigit bs) then
    .ok (.verbatim .number (b :: bs) (numberLength (b :: bs)))
  else if c = '"' || c = '\'' then
    match stringBody b bs with
    | some (contents, n) => .ok ⟨.string, contents, n⟩
    | none => .error .unterminatedString
  else if isNameStart c then name (b :: bs)
  else if c = '(' then
    match closureHead? bs with
    | some head =>
      let size := closureBodyLength 0 (bs.drop head)
      let body := Text.trimSpaceBytes ((bs.drop head).take size)
      if body.isEmpty then .error .emptyClosure else .ok ⟨.closure, body, head + size⟩
    | none => .ok ⟨.lparen, [b], 0⟩
  else
    match TokenKind.ofSign? c with
    | some kind => .ok ⟨kind, [b], 0⟩
    | none => .error (.unexpectedChar (Utf8.glyphAt b bs).toChar)

/-! ## the whole text -/

/-- A place in a text and what stands from there on. -/
structure Cursor where
  pos : Pos
  rest : Bytes
  deriving DecidableEq, Repr, Inhabited

/-- The cursor after the next `n` bytes. -/
def Cursor.advance (c : Cursor) (n : Nat) : Cursor :=
  ⟨c.pos.past (c.rest.take n), c.rest.drop n⟩

/-- The tokens from a cursor on. -/
def tokensFrom (c : Cursor) : Except SyntaxError (List Token) :=
  match _h : c.rest with
  | [] => .ok [⟨.endOfInput, [], c.pos⟩]
  | b :: bs =>
    match gap b bs with
    | .error cause => .error ⟨cause, c.pos, []⟩
    | .ok (some more) => tokensFrom (c.advance (more + 1))
    | .ok none =>
      match lexeme b bs with
      | .error cause => .error ⟨cause, c.pos, []⟩
      | .ok l => (tokensFrom (c.advance (l.more + 1))).map (⟨l.kind, l.lexeme, c.pos⟩ :: ·)
termination_by c.rest.length
decreasing_by
  all_goals
    simp only [Cursor.advance, List.length_drop, _h, List.length_cons]
    omega

end Lexer

/-- The tokens of a source text, the last one of kind `endOfInput`. -/
def Token.scan (source : Bytes) : Except SyntaxError (List Token) :=
  Lexer.tokensFrom ⟨.start, source⟩

end EffectChain
