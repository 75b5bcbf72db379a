import EffectChain.Text.Utf8

/-!
# EffectChain.Text.Basic

What texts are asked for throughout: white space as Unicode defines it and texts without it at
their ends; the case of ASCII letters, and characters that differ in case only, for the Latin,
Greek and Cyrillic letters; texts cut at a separator, and texts made of lines; how many
single-character changes lead from one text to another.
-/

namespace EffectChain.Text

/-! ## white space -/

/-- The characters with the property White_Space. -/
def isSpace (c : Char) : Bool :=
  let n := c.toNat
  (9 ≤ n && n ≤ 13) || n = 0x20 || n = 0x85 || n = 0xA0 || n = 0x1680 ||
    (0x2000 ≤ n && n ≤ 0x200A) || n = 0x2028 || n = 0x2029 || n = 0x202F || n = 0x205F || n = 0x3000

/-- Drops the elements that satisfy `p` at both ends. -/
def trimBoth {α : Type} (p : α → Bool) (xs : List α) : List α :=
  ((xs.dropWhile p).reverse.dropWhile p).reverse

/-- A byte text without white space at its ends. -/
def trimSpaceBytes (bs : Bytes) : Bytes :=
  (trimBoth (fun g => isSpace g.toChar) (Utf8.glyphs bs)).flatMap Glyph.bytes

/-- A string without white space at its ends. -/
def trimSpace (s : String) : String := String.ofList (trimBoth isSpace s.toList)

/-! ## case -/

/-- An ASCII capital letter as its small letter. -/
def lowerChar (c : Char) : Char :=
  if 'A' ≤ c && c ≤ 'Z' then Char.ofNat (c.toNat + 32) else c

/-- A text with small letters for its ASCII capitals. -/
def lower (s : String) : String := String.ofList (s.toList.map lowerChar)

/-- A text with capitals for its ASCII small letters. -/
def upper (s : String) : String :=
  String.ofList (s.toList.map fun c => if 'a' ≤ c && c ≤ 'z' then Char.ofNat (c.toNat - 32) else c)

/-- Letters of the Latin extensions that come in pairs, the capital one even. -/
def evenPair (n : Nat) : Bool :=
  (0x100 ≤ n && n ≤ 0x12F) || (0x132 ≤ n && n ≤ 0x137) || (0x14A ≤ n && n ≤ 0x177) ||
    (0x460 ≤ n && n ≤ 0x481) || (0x48A ≤ n && n ≤ 0x4BF) || (0x4D0 ≤ n && n ≤ 0x52F) ||
    (0x1E00 ≤ n && n ≤ 0x1E95) || (0x1EA0 ≤ n && n ≤ 0x1EFF)

/-- Letters of the Latin extensions that come in pairs, the capital one odd. -/
def oddPair (n : Nat) : Bool :=
  (0x139 ≤ n && n ≤ 0x148) || (0x179 ≤ n && n ≤ 0x17E) || (0x4C1 ≤ n && n ≤ 0x4CE)

/-- The code of the small letter of a capital. -/
def smallCode (n : Nat) : Nat :=
  if 0x41 ≤ n && n ≤ 0x5A then n + 32
  else if 0xC0 ≤ n && n ≤ 0xDE && n ≠ 0xD7 then n + 32
  else if 0x391 ≤ n && n ≤ 0x3A9 && n ≠ 0x3A2 then n + 32
  else if 0x410 ≤ n && n ≤ 0x42F then n + 32
  else if 0x400 ≤ n && n ≤ 0x40F then n + 80
  else if evenPair n then n + (1 - n % 2)
  else if oddPair n then n + n % 2
  else n

/-- A letter by its small form, the variants of `k`, `s` and final sigma included. -/
def foldChar (c : Char) : Char :=
  match c.toNat with
  | 0x212A => 'k'
  | 0x17F => 's'
  | 0x3C2 => Char.ofNat 0x3C3
  | n => Char.ofNat (smallCode n)

/-- Two characters are the same but for their case. -/
def sameFold (a b : Char) : Bool := a = b || foldChar a = foldChar b

/-- A capital letter. -/
def isCapital (c : Char) : Bool := smallCode c.toNat ≠ c.toNat

/-- A small letter. -/
def isSmall (c : Char) : Bool :=
  let n := c.toNat
  (0x61 ≤ n && n ≤ 0x7A) || n = 0xB5 || (0xDF ≤ n && n ≤ 0xFF && n ≠ 0xF7) ||
    (0x3AC ≤ n && n ≤ 0x3CE) || (0x430 ≤ n && n ≤ 0x45F) ||
    (evenPair n && n % 2 = 1) || (oddPair n && n % 2 = 0)

/-! ## cutting -/

/-- The parts of a list between the elements equal to `sep`; there is always at
least one part. -/
def splitList {α : Type} [DecidableEq α] (sep : α) : List α → List (List α)
  | [] => [[]]
  | c :: cs =>
    if c = sep then [] :: splitList sep cs
    else match splitList sep cs with
      | p :: ps => (c :: p) :: ps
      | [] => [[c]]

/-- The parts of a text between the characters `sep`. -/
def splitChar (sep : Char) (s : String) : List String := (splitList sep s.toList).map String.ofList

/-- A text cut at the first `sep`. -/
def cut? (sep : Char) (s : String) : Option (String × String) :=
  let cs := s.toList
  let head := cs.takeWhile (· ≠ sep)
  match cs.dropWhile (· ≠ sep) with
  | [] => none
  | _ :: tail => some (String.ofList head, String.ofList tail)

/-- A text cut at the last `sep`. -/
def cutLast? (sep : Char) (s : String) : Option (String × String) :=
  let cs := s.toList.reverse
  let tail := cs.takeWhile (· ≠ sep)
  match cs.dropWhile (· ≠ sep) with
  | [] => none
  | _ :: head => some (String.ofList head.reverse, String.ofList tail.reverse)

/-- The longest parts of a list without elements that satisfy `p`; none is empty. -/
def fieldsList {α : Type} (p : α → Bool) : List α → List (List α)
  | [] => []
  | c :: cs =>
    if p c then fieldsList p cs
    else match cs, fieldsList p cs with
      | d :: _, f :: fs => if p d then [c] :: f :: fs else (c :: f) :: fs
      | _, fs => [c] :: fs

/-- The parts of a text between characters that satisfy `p`; none is empty. -/
def fields (p : Char → Bool) (s : String) : List String := (fieldsList p s.toList).map String.ofList

/-- A text without the characters at its end that satisfy `p`. -/
def trimEnd (p : Char → Bool) (s : String) : String :=
  String.ofList (s.toList.reverse.dropWhile p).reverse

/-- The text after its last `sep`, the whole text when there is none. -/
def afterLast (sep : Char) (s : String) : String := ((cutLast? sep s).map (·.2)).getD s

/-- The text of lines, each with its end. -/
def ofLines (ls : List String) : String := String.join (ls.map (· ++ "\n"))

/-! ## distance -/

/-- The next row of the table of distances: `above` is the row before, `left` the
distance to the left of the next entry. -/
def distanceRow (c : Char) (left : Nat) : List Nat → List Char → List Nat
  | diag :: up :: above, d :: ds =>
    let here := min (min (left + 1) (up + 1)) (if c = d then diag else diag + 1)
    here :: distanceRow c here (up :: above) ds
  | _, _ => []

/-- The least number of insertions, deletions and replacements between two texts. -/
def distance (a b : String) : Nat :=
  let first := List.range (b.length + 1)
  let row := a.toList.foldl (fun row c =>
    let left := row.headD 0 + 1
    left :: distanceRow c left row b.toList) first
  row.getLastD 0

end EffectChain.Text
