import EffectChain.Document.Basic
import EffectChain.Number.Read

/-!
# EffectChain.Document.Read

Reading a document from text: block mappings and sequences by indentation, flow
collections in brackets, plain, quoted and block scalars, comments.

Anchors and aliases, tags, directives, a second document and keys behind a question mark are
not read: a text with one of them is no document here.  What is proved of catalog files does
not depend on which texts are read.

A reader gives back the value with the place after it, `none` when the text is
no document.  The recursion goes down a bound taken from the length of the text:
every step into a value or on to the next entry takes at least one character.
-/

namespace EffectChain.Document

namespace Reader

/-- The characters still to be read and the column they start at. -/
structure Cursor where
  rest : List Char
  col : Nat
  deriving Repr, Inhabited

/-! ## scalars -/

/-- The value of digits in a base of at most sixteen. -/
def digits? (base : Nat) (cs : List Char) : Option Nat :=
  if !cs.isEmpty && cs.all (fun c => Number.isHexDigit c && Number.hexDigitValue c < base) then
    some (Number.digitsValue base (cs.map Number.hexDigitValue))
  else none

/-- An integer that fits sixty-four bits. -/
def integer? (negative : Bool) (base : Nat) (cs : List Char) : Option Document :=
  match digits? base cs with
  | some n =>
    if negative then if n ≤ 0x8000000000000000 then some (.int (-(n : Int))) else none
    else if n < 0x10000000000000000 then some (.int n) else none
  | none => none

/-- The number a plain scalar stands for: with a point it is read as a decimal
fraction, otherwise as an integer in the base of its first characters. -/
def number? (s : String) : Option Document :=
  let cs := s.toList
  let points := cs.count '.'
  if cs.isEmpty || cs.head? = some '_' || points > 1 then none
  else
    let negative := cs.head? = some '-'
    let body := match cs with
      | '+' :: '-' :: r => r
      | '+' :: r => r
      | '-' :: r => r
      | r => r
    let body := body.filter (· ≠ '_')
    match body with
    | '0' :: 'x' :: r => integer? negative 16 r
    | '0' :: 'o' :: r => integer? negative 8 r
    | '0' :: 'b' :: r => integer? negative 2 r
    | _ =>
      if points = 1 then
        (Number.read? (String.ofList (if negative then '-' :: body else body))).map .float
      else if body.head? = some '0' && body.length > 1 then integer? negative 8 body
      else integer? negative 10 body

/-- The value of a scalar written without quotes. -/
def plainValue (s : String) : Document :=
  if s = "" || s = "~" || s = "null" || s = "Null" || s = "NULL" then .null
  else if s = "true" || s = "True" || s = "TRUE" then .bool true
  else if s = "false" || s = "False" || s = "FALSE" then .bool false
  else if s = ".inf" || s = ".Inf" || s = ".INF" then .float (Number.infinity false)
  else if s = "-.inf" || s = "-.Inf" || s = "-.INF" then .float (Number.infinity true)
  else if s = ".nan" || s = ".NaN" || s = ".NAN" then .float (0 / 0)
  else (number? s).getD (.text s)

/-! ## places -/

/-- The place after one character. -/
def Cursor.next (c : Cursor) : Cursor :=
  match c.rest with
  | [] => c
  | '\n' :: r => ⟨r, 0⟩
  | _ :: r => ⟨r, c.col + 1⟩

def isBlank (c : Char) : Bool := c = ' ' || c = '\t'

/-- Nothing but blanks up to the end of the line. -/
def restBlank (cs : List Char) : Bool :=
  match cs.dropWhile isBlank with
  | [] | '\n' :: _ | '\r' :: _ => true
  | _ => false

/-- The characters from the end of the line on. -/
def toLineEnd (cs : List Char) : List Char := cs.dropWhile (· ≠ '\n')

/-- The place of the next content: blanks, line ends and comments are passed.
A tab is no indentation. -/
def toContent (fresh spaced : Bool) (col : Nat) : List Char → Option Cursor
  | [] => some ⟨[], 0⟩
  | '\n' :: r => toContent true true 0 r
  | '\r' :: r => toContent fresh true (col + 1) r
  | ' ' :: r => toContent fresh true (col + 1) r
  | '\t' :: r => if fresh && !restBlank r then none else toContent fresh true (col + 1) r
  | '#' :: r => if fresh || spaced then comment r else some ⟨'#' :: r, col⟩
  | c :: r => some ⟨c :: r, col⟩
where
  comment : List Char → Option Cursor
  | [] => some ⟨[], 0⟩
  | '\n' :: r => toContent true true 0 r
  | _ :: r => comment r

/-- The next content after a value. -/
def Cursor.content (c : Cursor) : Option Cursor := toContent (c.col = 0) false c.col c.rest

/-- The place after the blanks on this line. -/
def Cursor.afterBlanks (c : Cursor) : Cursor :=
  let n := (c.rest.takeWhile isBlank).length
  ⟨c.rest.drop n, c.col + n⟩

/-- The line ends here, or only a comment follows. -/
def Cursor.lineDone (c : Cursor) : Bool :=
  let d := c.afterBlanks
  match d.rest with
  | [] | '\n' :: _ | '\r' :: _ => true
  | '#' :: _ => d.col ≠ c.col || c.col = 0
  | _ => false

/-! ## quoted scalars -/

/-- The character of a hexadecimal number of `n` digits. -/
def hexChar? (n : Nat) (cs : List Char) : Option (Char × List Char) :=
  let ds := cs.take n
  if ds.length = n then (digits? 16 ds).map fun v => (Char.ofNat v, cs.drop n) else none

/-- The characters an escape stands for, and what follows it. -/
def escape? : List Char → Option (List Char × List Char)
  | '0' :: r => some ([Char.ofNat 0], r)
  | 'a' :: r => some ([Char.ofNat 7], r)
  | 'b' :: r => some ([Char.ofNat 8], r)
  | 't' :: r => some (['\t'], r)
  | '\t' :: r => some (['\t'], r)
  | 'n' :: r => some (['\n'], r)
  | 'v' :: r => some ([Char.ofNat 11], r)
  | 'f' :: r => some ([Char.ofNat 12], r)
  | 'r' :: r => some (['\r'], r)
  | 'e' :: r => some ([Char.ofNat 27], r)
  | ' ' :: r => some ([' '], r)
  | '"' :: r => some (['"'], r)
  | '/' :: r => some (['/'], r)
  | '\\' :: r => some (['\\'], r)
  | 'N' :: r => some ([Char.ofNat 0x85], r)
  | '_' :: r => some ([Char.ofNat 0xA0], r)
  | 'L' :: r => some ([Char.ofNat 0x2028], r)
  | 'P' :: r => some ([Char.ofNat 0x2029], r)
  | 'x' :: r => (hexChar? 2 r).map fun (c, r) => ([c], r)
  | 'u' :: r => (hexChar? 4 r).map fun (c, r) => ([c], r)
  | 'U' :: r => (hexChar? 8 r).map fun (c, r) => ([c], r)
  | '\n' :: r => some ([], r.dropWhile isBlank)
  | _ => none

/-- A line end inside quotes: one becomes a space, further ones stay. -/
def foldBreak (acc cs : List Char) : List Char × List Char :=
  let acc := acc.dropWhile isBlank
  let gap := cs.takeWhile fun c => c = '\n' || isBlank c || c = '\r'
  let breaks := gap.count '\n'
  let acc := if breaks = 0 then ' ' :: acc else List.replicate breaks '\n' ++ acc
  (acc, cs.drop gap.length)

/-- The contents of double quotes, collected backwards, and what follows them. -/
def doubleQuoted (fuel : Nat) (acc : List Char) (cs : List Char) : Option (String × List Char) :=
  match fuel, cs with
  | _, '"' :: r => some (String.ofList acc.reverse, r)
  | n + 1, '\\' :: r => do
    let (xs, r) ← escape? r
    doubleQuoted n (xs.reverse ++ acc) r
  | n + 1, '\n' :: r => let (acc, r) := foldBreak acc r; doubleQuoted n acc r
  | n + 1, c :: r => doubleQuoted n (c :: acc) r
  | _, _ => none

/-- The contents of single quotes, collected backwards, and what follows them. -/
def singleQuoted (fuel : Nat) (acc : List Char) (cs : List Char) : Option (String × List Char) :=
  match fuel, cs with
  | n + 1, '\'' :: '\'' :: r => singleQuoted n ('\'' :: acc) r
  | _, '\'' :: r => some (String.ofList acc.reverse, r)
  | n + 1, '\n' :: r => let (acc, r) := foldBreak acc r; singleQuoted n acc r
  | n + 1, c :: r => singleQuoted n (c :: acc) r
  | _, _ => none

/-- The column after a stretch of text. -/
def columnAfter (col : Nat) (consumed : List Char) : Nat :=
  consumed.foldl (fun n c => if c = '\n' then 0 else n + 1) col

/-- The cursor at `rest`, which ends the characters at hand. -/
def Cursor.moveTo (c : Cursor) (rest : List Char) : Cursor :=
  ⟨rest, columnAfter c.col (c.rest.take (c.rest.length - rest.length))⟩

/-- A quoted scalar at the cursor. -/
def quoted? (c : Cursor) : Option (String × Cursor) :=
  match c.rest with
  | '"' :: r => (doubleQuoted r.length [] r).map fun (s, rest) => (s, c.moveTo rest)
  | '\'' :: r => (singleQuoted r.length [] r).map fun (s, rest) => (s, c.moveTo rest)
  | _ => none

/-! ## plain scalars -/

/-- A plain scalar cannot start with a sign of the format. -/
def plainStart (flow : Bool) : List Char → Bool
  | [] => false
  | c :: r =>
    let followed := match r with
      | [] => false
      | d :: _ => !(isBlank d || d = '\n' || (flow && ",[]{}".toList.contains d))
    if c = '-' || c = '?' || c = ':' then followed
    else !(",[]{}#&*!|>'\"%@".toList.contains c || c.toNat = 96 || isBlank c || c = '\n')

/-- The characters of a plain scalar on one line, collected backwards. -/
def plainLine (flow : Bool) (acc : List Char) : List Char → List Char × List Char
  | [] => (acc, [])
  | c :: r =>
    let ends := match c with
      | '\n' | '\r' => true
      | ':' => match r with
        | [] => true
        | d :: _ => isBlank d || d = '\n' || d = '\r' || (flow && ",[]{}".toList.contains d)
      | '#' => acc.head?.any isBlank
      | _ => flow && ",[]{}".toList.contains c
    if ends then (acc, c :: r) else plainLine flow (c :: acc) r

/-- The text of a plain scalar on one line, and what follows it.  Blanks at its
end are not part of it: a comment after them is still set off by a blank. -/
def plainText (flow : Bool) (cs : List Char) : String × List Char :=
  let (acc, rest) := plainLine flow [] cs
  (String.ofList (acc.dropWhile isBlank).reverse, (acc.takeWhile isBlank).reverse ++ rest)

/-! ## flow collections -/

/-- A list of entries has no key twice. -/
def distinctKeys : List (String × Document) → Bool
  | [] => true
  | (k, _) :: es => !(es.any (·.1 = k)) && distinctKeys es

mutual

/-- A value inside a flow collection. -/
def flowNode (fuel : Nat) (c : Cursor) : Option (Document × Cursor) :=
  match fuel with
  | 0 => none
  | n + 1 => do
    let c ← c.content
    match c.rest with
    | '[' :: _ => flowItems n [] c.next
    | '{' :: _ => flowEntries n [] c.next
    | '"' :: _ | '\'' :: _ => do
      let (s, c) ← quoted? c
      return (.text s, c)
    | cs =>
      if plainStart true cs then
        let (s, rest) := plainText true cs
        return (plainValue s, c.moveTo rest)
      else none

/-- The items of a flow sequence after its opening bracket. -/
def flowItems (fuel : Nat) (acc : List Document) (c : Cursor) : Option (Document × Cursor) :=
  match fuel with
  | 0 => none
  | n + 1 => do
    let c ← c.content
    match c.rest with
    | ']' :: _ => return (.list acc.reverse, c.next)
    | _ =>
      let (d, c) ← flowNode n c
      let c ← c.content
      match c.rest with
      | ',' :: _ => flowItems n (d :: acc) c.next
      | ']' :: _ => return (.list (d :: acc).reverse, c.next)
      | _ => none

/-- The entries of a flow mapping after its opening brace. -/
def flowEntries (fuel : Nat) (acc : List (String × Document)) (c : Cursor) :
    Option (Document × Cursor) :=
  match fuel with
  | 0 => none
  | n + 1 => do
    let c ← c.content
    match c.rest with
    | '}' :: _ => finish acc c.next
    | _ =>
      let (k, c) ← flowNode n c
      let c ← c.content
      let (v, c) ← match c.rest with
        | ':' :: _ => do
          let c ← c.next.content
          match c.rest with
          | ',' :: _ | '}' :: _ => pure (Document.null, c)
          | _ => flowNode n c
        | _ => pure (Document.null, c)
      let acc := (k.keyText, v) :: acc
      let c ← c.content
      match c.rest with
      | ',' :: _ => flowEntries n acc c.next
      | '}' :: _ => finish acc c.next
      | _ => none
where
  finish (acc : List (String × Document)) (c : Cursor) : Option (Document × Cursor) :=
    if distinctKeys acc then some (.map acc.reverse, c) else none

end

/-! ## block scalars -/

/-- The lines of a text, each without its end. -/
def linesOf (cs : List Char) : List (List Char) :=
  cs.foldr (fun c ls =>
    if c = '\n' then [] :: ls
    else match ls with
      | l :: more => (c :: l) :: more
      | [] => [[c]]) [[]]

def indentOf (line : List Char) : Nat := (line.takeWhile (· = ' ')).length

def lineBlank (line : List Char) : Bool := line.all fun c => isBlank c || c = '\r'

/-- Joins the lines of a folded scalar: a single break between lines that are not
indented further becomes a space. -/
def foldLines : List (List Char) → List Char
  | [] => []
  | [l] => l
  | l :: m :: rest =>
    let indented := fun (x : List Char) => x.head?.any isBlank
    if l.isEmpty then '\n' :: foldLines (m :: rest)
    else if m.isEmpty then
      if indented l then l ++ '\n' :: foldLines (m :: rest) else l ++ foldLines (m :: rest)
    else if indented l || indented m then l ++ '\n' :: foldLines (m :: rest)
    else l ++ ' ' :: foldLines (m :: rest)

/-- A block scalar: its lines are those indented further than `parent`. -/
def blockScalar (parent : Nat) (top : Bool) (c : Cursor) : Option (Document × Cursor) :=
  match c.rest with
  | [] => none
  | style :: r =>
    let header := r.takeWhile fun c => c = '+' || c = '-' || Number.isDigit c
    let after := r.drop header.length
    if !(⟨after, c.col + 1 + header.length⟩ : Cursor).lineDone then none
    else
      let body := (toLineEnd after).drop 1
      let lines := linesOf body
      let given := header.find? Number.isDigit
      let firstIndent := ((lines.find? (!lineBlank ·)).map indentOf).getD 0
      let least := if top then 0 else parent + 1
      let indent := match given with
        | some d => (if top then 0 else parent) + (d.toNat - 48)
        | none => max firstIndent least
      let own := lines.takeWhile fun l => lineBlank l || indent ≤ indentOf l
      let consumed := if own.length = lines.length then body.length
        else own.foldl (fun n l => n + l.length + 1) 0
      let texts := own.map (List.drop indent)
      -- the part after the last line end is no line of its own
      let texts := if own.length = lines.length && (own.getLast?.map List.isEmpty).getD false
        then texts.dropLast else texts
      let content := (texts.reverse.dropWhile lineBlank).reverse
      let trailing := texts.length - content.length
      let joined := if style = '|' then (List.intercalate ['\n'] content) else foldLines content
      let text :=
        if header.contains '-' then joined
        else if header.contains '+' then
          joined ++ List.replicate (trailing + (if content.isEmpty then 0 else 1)) '\n'
        else if content.isEmpty then [] else joined ++ ['\n']
      some (.text (String.ofList text), ⟨body.drop consumed, 0⟩)

/-! ## block collections -/

/-- The key of a mapping entry at the cursor and the place after its colon;
`none` when no entry starts here. -/
def entryKey? (c : Cursor) : Option (String × Cursor) :=
  let colon := fun (d : Cursor) => match d.rest with
    | ':' :: r => match r with
      | [] => some d.next
      | e :: _ => if isBlank e || e = '\n' || e = '\r' then some d.next else none
    | _ => none
  match c.rest with
  | '"' :: _ | '\'' :: _ => do
    let (s, d) ← quoted? c
    let d ← colon d.afterBlanks
    return (s, d)
  | cs =>
    if plainStart false cs then do
      let (s, rest) := plainText false cs
      let d ← colon (c.moveTo rest).afterBlanks
      return ((plainValue s).keyText, d)
    else none

/-- An item of a block sequence starts here. -/
def startsItem : List Char → Bool
  | '-' :: [] => true
  | '-' :: c :: _ => isBlank c || c = '\n' || c = '\r'
  | _ => false

/-- The lines that continue a plain scalar: those indented at least `least` that
are no entries themselves; `none` when one is. -/
def plainMore (fuel least : Nat) (acc : String) (c : Cursor) : Option (String × Cursor) :=
  match fuel with
  | 0 => some (acc, c)
  | n + 1 =>
    let blankEnd := c.rest.dropWhile isBlank
    match blankEnd with
    | '\n' :: _ | '\r' :: _ => do
      let breaks := (c.rest.takeWhile fun c => isBlank c || c = '\n' || c = '\r').count '\n'
      let d ← toContent true true 0 ((toLineEnd blankEnd).drop 1)
      match d.rest with
      | [] => some (acc, c)
      | '#' :: _ => some (acc, c)
      | cs =>
        if d.col < least || d.lineDone then some (acc, c)
        else if (entryKey? d).isSome then none
        else
          let (s, rest) := plainText false cs
          let glue := if breaks ≤ 1 then " " else String.ofList (List.replicate (breaks - 1) '\n')
          plainMore n least (acc ++ glue ++ s) (d.moveTo rest)
    | _ => some (acc, c)

/-- A scalar or flow collection that is the value of an entry or an item. -/
def inlineNode (fuel least : Nat) (c : Cursor) : Option (Document × Cursor) :=
  match c.rest with
  | '[' :: _ | '{' :: _ => do
    let (d, c) ← flowNode fuel c
    if c.lineDone then some (d, c) else none
  | '"' :: _ | '\'' :: _ => do
    let (s, c) ← quoted? c
    if c.lineDone then some (.text s, c) else none
  | '|' :: _ | '>' :: _ => blockScalar (least - 1) (least = 0) c
  | cs =>
    if plainStart false cs then do
      let (s, rest) := plainText false cs
      let (t, d) ← plainMore fuel least s (c.moveTo rest)
      if d.lineDone then some (if t = s then plainValue s else .text t, d) else none
    else none

mutual

/-- A block node whose content starts at the cursor, with scalars that go on in
lines indented at least `least`. -/
def blockNode (fuel least : Nat) (c : Cursor) : Option (Document × Cursor) :=
  match fuel with
  | 0 => none
  | n + 1 =>
    if startsItem c.rest then blockItems n c.col [] c
    else if (entryKey? c).isSome then blockEntries n c.col [] c
    else inlineNode n least c

/-- The items of a block sequence in column `col`. -/
def blockItems (fuel col : Nat) (acc : List Document) (c : Cursor) : Option (Document × Cursor) :=
  match fuel with
  | 0 => none
  | n + 1 => do
    let c := c.next
    let (d, c) ←
      if c.lineDone then do
        let e ← c.content
        if e.rest.isEmpty || e.col ≤ col then some (Document.null, c) else blockNode n (col + 1) e
      else blockNode n (col + 1) c.afterBlanks
    let e ← c.content
    if !e.rest.isEmpty && e.col = col && startsItem e.rest then blockItems n col (d :: acc) e
    else if !e.rest.isEmpty && e.col > col then none
    else some (.list (d :: acc).reverse, c)

/-- The entries of a block mapping in column `col`. -/
def blockEntries (fuel col : Nat) (acc : List (String × Document)) (c : Cursor) :
    Option (Document × Cursor) :=
  match fuel with
  | 0 => none
  | n + 1 => do
    let (k, c) ← entryKey? c
    let (d, c) ←
      if c.lineDone then do
        let e ← c.content
        if e.rest.isEmpty || e.col < col then some (Document.null, c)
        else if e.col = col then
          if startsItem e.rest then blockItems n col [] e else some (Document.null, c)
        else blockNode n (col + 1) e
      else
        let e := c.afterBlanks
        if startsItem e.rest || ((entryKey? e).isSome) then none else inlineNode n (col + 1) e
    let acc := (k, d) :: acc
    let e ← c.content
    if e.rest.isEmpty || e.col < col then
      if distinctKeys acc then some (.map acc.reverse, c) else none
    else if e.col = col && (entryKey? e).isSome then blockEntries n col acc e
    else none

end

/-- The text after the line that opens the document, if there is one. -/
def afterMarker (cs : List Char) : List Char :=
  match cs with
  | '-' :: '-' :: '-' :: r => if restBlank r then (toLineEnd r).drop 1 else cs
  | _ => cs

end Reader

open Reader in
/-- Reads a document; an empty text is the null document. -/
def read? (s : String) : Option Document := do
  let cs := afterMarker s.toList
  let fuel := 2 * cs.length + 8
  let c ← (⟨cs, 0⟩ : Cursor).content
  if c.rest.isEmpty then some .null
  else
    let (d, c) ← blockNode fuel 0 c
    let e ← c.content
    if e.rest.isEmpty then some d else none

end EffectChain.Document
