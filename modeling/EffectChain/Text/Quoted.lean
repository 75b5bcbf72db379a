import EffectChain.Text.Printable
import EffectChain.Text.Utf8

/-!
# EffectChain.Text.Quoted

Text between quotes: printable characters stand as they are, the usual control
characters have a letter, and everything else is written by its number.  A byte
that belongs to no character is written by its value, so quoting loses nothing.
-/

namespace EffectChain.Text

/-- The lower-case digit of a value below sixteen. -/
def hexDigit (n : Nat) : Char :=
  if n < 10 then Char.ofNat (48 + n) else Char.ofNat (87 + n)

/-- The lowest `width` hexadecimal digits of `n`, most significant first. -/
def hexDigits : (width : Nat) → (n : Nat) → List Char
  | 0, _ => []
  | w + 1, n => hexDigits w (n / 16) ++ [hexDigit (n % 16)]

/-- The lower-case hexadecimal text of `n`, without leading zeros. -/
def hexText (n : Nat) : String :=
  String.ofList ((Nat.toDigits 16 n))

/-- The letter that follows the backslash for a control character, if it has one. -/
def escapeLetter? (c : Char) : Option Char :=
  match c.toNat with
  | 7 => some 'a'
  | 8 => some 'b'
  | 12 => some 'f'
  | 10 => some 'n'
  | 13 => some 'r'
  | 9 => some 't'
  | 11 => some 'v'
  | _ => none

/-- One character inside text delimited by `quote`. -/
def escapeChar (quote : Char) (c : Char) : List Char :=
  if c = quote || c = '\\' then ['\\', c]
  else if isPrintable c then [c]
  else match escapeLetter? c with
    | some l => ['\\', l]
    | none =>
      if c.toNat < 0x20 || c.toNat = 0x7F then '\\' :: 'x' :: hexDigits 2 c.toNat
      else if c.toNat < 0x10000 then '\\' :: 'u' :: hexDigits 4 c.toNat
      else '\\' :: 'U' :: hexDigits 8 c.toNat

/-- One glyph inside text delimited by `quote`; a stray byte is written by its value. -/
def escapeGlyph (quote : Char) : Glyph → List Char
  | .char c _ => escapeChar quote c
  | .stray b => '\\' :: 'x' :: hexDigits 2 b.toNat

/-- A byte sequence between double quotes. -/
def quoteBytes (bs : Bytes) : String :=
  String.ofList ('"' :: (Utf8.glyphs bs).flatMap (escapeGlyph '"') ++ ['"'])

/-- A string between double quotes. -/
def quote (s : String) : String :=
  String.ofList ('"' :: s.toList.flatMap (escapeChar '"') ++ ['"'])

/-- A character between single quotes. -/
def quoteChar (c : Char) : String :=
  String.ofList ('\'' :: escapeChar '\'' c ++ ['\''])

end EffectChain.Text
