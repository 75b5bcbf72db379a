import EffectChain.Text.Basic

/-!
# EffectChain.Live.Word

What stands around the cursor in a line that is being written: the word it is in,
what the word follows, and the call whose arguments are being written.

Offsets count bytes.  Words end at ASCII characters only, so a word is whole
characters even when the offset is inside one.
-/

namespace EffectChain

/-- The part of a line from one offset up to another. -/
structure Span where
  start : Nat := 0
  stop : Nat := 0
  deriving DecidableEq, Repr, Inhabited

namespace Span

/-- The part of a line a span covers. -/
def of (s : Span) (line : Bytes) : Bytes := (line.take s.stop).drop s.start

/-- A line with other bytes in place of the part a span covers. -/
def replace (s : Span) (line new : Bytes) : Bytes := line.take s.start ++ new ++ line.drop s.stop

end Span

/-- The bytes that end a word: blanks, the dot of a member and punctuation. -/
def isWordEnd (b : UInt8) : Bool :=
  (".() \t[]+-*/%<>=!&|,?:;#".toList.any fun c => Bytes.ofChar c = b) || b = 0x7B || b = 0x7D

/-- The word around an offset; empty between two ends. -/
def Span.wordAt (line : Bytes) (offset : Nat) : Span :=
  let offset := min offset line.length
  let before := (line.take offset).reverse.takeWhile fun b => !isWordEnd b
  let after := (line.drop offset).takeWhile fun b => !isWordEnd b
  ⟨offset - before.length, offset + after.length⟩

/-- What a word follows. -/
inductive WordContext where
  /-- Nothing that it belongs to. -/
  | free
  /-- The dot after a call. -/
  | chained
  /-- The dot after a path. -/
  | member (parent : String)
  deriving DecidableEq, Repr, Inhabited

namespace WordContext

def dot : UInt8 := Bytes.ofChar '.'

/-- The context of a word, given the line before it. -/
def after (before : Bytes) : WordContext :=
  match before.reverse with
  | b :: rest =>
    if b ≠ dot then .free
    else if rest.head? = some (Bytes.ofChar ')') then .chained
    else
      let path := (rest.takeWhile fun b => b = dot || !isWordEnd b).reverse
      match Text.trimBoth (· = dot) path with
      | [] => .free
      | path => .member (Bytes.toString path)
  | [] => .free

/-- The path a word is a member of; empty when it is of none. -/
def parent : WordContext → String
  | .member p => p
  | _ => ""

end WordContext

/-- A call whose arguments are being written. -/
structure OpenCall where
  /-- What is called, as it is written. -/
  name : String
  /-- The position of the argument at hand. -/
  arg : Nat := 0
  /-- The keyword of the argument at hand; empty when it has none. -/
  keyword : String := ""
  deriving DecidableEq, Repr, Inhabited

namespace OpenCall

/-- A line, backwards, cut at the parenthesis that is still open when `depth` more
are closed behind it: what stands before it, backwards, and what stands behind it. -/
def cutOpen? (depth : Nat) (inside : Bytes) : Bytes → Option (Bytes × Bytes)
  | [] => none
  | b :: before =>
    if b = Bytes.ofChar ')' then cutOpen? (depth + 1) (b :: inside) before
    else if b = Bytes.ofChar '(' then
      match depth with
      | 0 => some (before, inside)
      | d + 1 => cutOpen? d (b :: inside) before
    else cutOpen? depth (b :: inside) before

/-- The characters of a name, which may be qualified. -/
def isNameByte (b : UInt8) : Bool :=
  b = Bytes.ofChar '_' || b = WordContext.dot || (Bytes.ofChar 'a' ≤ b && b ≤ Bytes.ofChar 'z') ||
    (Bytes.ofChar 'A' ≤ b && b ≤ Bytes.ofChar 'Z') || (Bytes.ofChar '0' ≤ b && b ≤ Bytes.ofChar '9')

/-- The argument at the end of a list of arguments: its position and its text so
far.  Commas inside brackets do not count. -/
def lastArg (depth : Int) (index : Nat) (arg : Bytes) : Bytes → Nat × Bytes
  | [] => (index, arg.reverse)
  | b :: rest =>
    if b = Bytes.ofChar ',' && depth = 0 then lastArg depth (index + 1) [] rest
    else if b = Bytes.ofChar '(' || b = Bytes.ofChar '[' then lastArg (depth + 1) index
      (b :: arg) rest
    else if b = Bytes.ofChar ')' || b = Bytes.ofChar ']' then lastArg (depth - 1) index
      (b :: arg) rest
    else lastArg depth index (b :: arg) rest

/-- The keyword an argument begins with; empty when it has none. -/
def keywordOf (arg : Bytes) : String :=
  if arg.contains (Bytes.ofChar ':') then
    Bytes.toString (Text.trimSpaceBytes (arg.takeWhile (· ≠ Bytes.ofChar ':')))
  else ""

/-- The call around an offset. -/
def at? (line : Bytes) (offset : Nat) : Option OpenCall := do
  let (before, inside) ← cutOpen? 0 [] (line.take offset).reverse
  match Text.trimBoth (· = WordContext.dot) (before.takeWhile isNameByte).reverse with
  | [] => none
  | name =>
    let (index, arg) := lastArg 0 0 [] inside
    return { name := Bytes.toString name, arg := index, keyword := keywordOf arg }

end OpenCall

end EffectChain
