import EffectChain.Document.Basic
import EffectChain.Text.Quoted

/-!
# EffectChain.Document.Json

Documents written as JSON, on one line or indented.  Maps are written in
increasing order of their keys.
-/

namespace EffectChain

namespace Text

/-- One character of a JSON text.  With `markup`, the characters that mean
something in markup are escaped too. -/
def jsonChar (markup : Bool) (c : Char) : List Char :=
  match c with
  | '"' => ['\\', '"']
  | '\\' => ['\\', '\\']
  | '\n' => ['\\', 'n']
  | '\r' => ['\\', 'r']
  | '\t' => ['\\', 't']
  | c =>
    if c.toNat = 8 then ['\\', 'b']
    else if c.toNat = 12 then ['\\', 'f']
    else if c.toNat < 0x20 || c.toNat = 0x2028 || c.toNat = 0x2029 ||
        (markup && (c = '<' || c = '>' || c = '&')) then
      '\\' :: 'u' :: hexDigits 4 c.toNat
    else [c]

/-- A text between quotes, as JSON writes it. -/
def json (markup : Bool) (s : String) : String :=
  String.ofList ('"' :: s.toList.flatMap (jsonChar markup) ++ ['"'])

/-- `n` blanks. -/
def blanks (n : Nat) : String := String.ofList (List.replicate n ' ')

end Text

namespace Document

/-- Items between two brackets: on one line, or each on a line of its own when a
width of indentation is given. -/
def enclosed (op cl : String) (indent : Option Nat) (depth : Nat) (items : List String) : String :=
  if items.isEmpty then op ++ cl
  else match indent with
    | none => op ++ ",".intercalate items ++ cl
    | some w =>
      let line := "\n" ++ Text.blanks (w * (depth + 1))
      op ++ line ++ ("," ++ line).intercalate items ++ "\n" ++ Text.blanks (w * depth) ++ cl

mutual

/-- The value at a depth of nesting. -/
def jsonAt (indent : Option Nat) (depth : Nat) : Document → String
  | .null => "null"
  | .bool b => if b then "true" else "false"
  | .int i => toString i
  | .float x => Number.interchange x
  | .text s => Text.json true s
  | .list xs => enclosed "[" "]" indent depth (jsonItems indent (depth + 1) xs)
  | .map es =>
    enclosed "\x7b" "\x7d" indent depth
      (((jsonEntries indent (depth + 1) es).mergeSort fun a b => a.1 ≤ b.1).map (·.2))

def jsonItems (indent : Option Nat) (depth : Nat) : List Document → List String
  | [] => []
  | d :: ds => jsonAt indent depth d :: jsonItems indent depth ds

/-- The entries, each with its key. -/
def jsonEntries (indent : Option Nat) (depth : Nat) :
    List (String × Document) → List (String × String)
  | [] => []
  | (k, d) :: es =>
    (k, Text.json true k ++ (if indent.isSome then ": " else ":") ++ jsonAt indent depth d) ::
      jsonEntries indent depth es

end

/-- The value as JSON; an indentation of zero writes it on one line. -/
def json (indent : Nat) (d : Document) : String :=
  jsonAt (if indent = 0 then none else some indent) 0 d

end Document

end EffectChain
