import EffectChain.Document.Json
import EffectChain.Log.Record
import EffectChain.Text.Basic

/-!
# EffectChain.Log.Line

The line of a record under construction.  Text lines are `key=value` pairs with
the groups a key is in before it; JSON lines are objects with an object for each
group.  What has to stand before the next key is part of the state, and a group
that turns out to be empty is taken back from the text but not from that state.
-/

namespace EffectChain.Log

/-- A character that a text value cannot hold without quotes. -/
def forcesQuotes (c : Char) : Bool :=
  if c.toNat < 0x80 then c = ' ' || c = '=' || c = '"' || c.toNat < 0x20
  else c.toNat = 0xFFFD || Text.isSpace c || !Text.isPrintable c

/-- Whether a word of a text line stands between quotes. -/
def needsQuotes (s : String) : Bool := s.isEmpty || s.toList.any forcesQuotes

/-- A word of a text line. -/
def word (s : String) : String := if needsQuotes s then Text.quote s else s

/-- One character of a JSON line: only the line controls have letters. -/
def jsonChar (c : Char) : List Char :=
  if c.toNat = 8 || c.toNat = 12 then '\\' :: 'u' :: Text.hexDigits 4 c.toNat
  else Text.jsonChar false c

/-- A text of a JSON line. -/
def jsonText (s : String) : String :=
  String.ofList ('"' :: s.toList.flatMap jsonChar ++ ['"'])

/-- A line under construction. -/
structure Line where
  format : Format
  text : String := ""
  /-- What stands before the next key. -/
  sep : String := ""
  /-- The groups before a key of a text line, each with its point. -/
  path : String := ""
  deriving Repr, Inhabited

namespace Line

/-- What stands between two values. -/
def between : Format → String
  | .text => " "
  | .json => ","

def add (l : Line) (s : String) : Line := { l with text := l.text ++ s }

/-- The key of a value. -/
def key (l : Line) (k : String) : Line :=
  let shown := match l.format with
    | .json => jsonText k ++ ":"
    | .text =>
      (if l.path = "" then word k
        else if k = "" || needsQuotes l.path then Text.quote (l.path ++ k)
        else word (l.path ++ k)) ++ "="
  { l with text := l.text ++ l.sep ++ shown, sep := between l.format }

/-- Starts a group. -/
def openGroup (l : Line) (name : String) : Line :=
  match l.format with
  | .json => { (l.key name).add "\x7b" with sep := "" }
  | .text => { l with path := l.path ++ name ++ "." }

/-- Ends a group. -/
def closeGroup (l : Line) (name : String) : Line :=
  match l.format with
  | .json => { l.add "\x7d" with sep := between .json }
  | .text =>
    let path := String.ofList (l.path.toList.take (l.path.length - name.length - 1))
    { l with path, sep := between .text }

/-- The text of a value that is no group. -/
def valueText (f : Format) (v : Value) : String :=
  match f, v with
  | .json, .missing => "null"
  | .json, .text s => jsonText s
  | .json, .float x => Number.interchange x
  | .json, .duration ns => toString ns
  | .text, .text s => word s
  | _, v => v.shown

mutual

/-- Adds a named value, and tells whether there was something to add. -/
def attr (l : Line) : String → Value → Line × Bool
  | _, .group [] => (l, true)
  | k, .group (a :: as) =>
    let opened := if k = "" then l else l.openGroup k
    let (inner, any) := opened.attrs (a :: as)
    if !any then ({ inner with text := l.text }, false)
    else (if k = "" then inner else inner.closeGroup k, true)
  | k, v => if Attr.isEmpty (k, v) then (l, false) else ((l.key k).add (valueText l.format v), true)

/-- Adds named values, and tells whether there was something to add. -/
def attrs (l : Line) : List Attr → Line × Bool
  | [] => (l, false)
  | (k, v) :: as =>
    let (l, added) := l.attr k v
    let (l, more) := l.attrs as
    (l, added || more)

end

end Line

end EffectChain.Log
