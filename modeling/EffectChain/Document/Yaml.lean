import EffectChain.Document.Json
import EffectChain.Document.Read

/-!
# EffectChain.Document.Yaml

Documents written as YAML: one entry a line and nested by indentation, or inside
brackets on one line.  Text stands without quotes unless it would be read as
something else.  Maps are written in increasing order of their keys; the items of
a list stand in the column of the key they belong to.
-/

namespace EffectChain.Document

/-! ## scalars -/

/-- Words that stand for something else than text, here or in older dialects. -/
def reservedWords : List String :=
  ["null", "Null", "NULL", "~", "true", "True", "TRUE", "false", "False", "FALSE",
   ".inf", ".Inf", ".INF", "-.inf", "-.Inf", "-.INF", ".nan", ".NaN", ".NAN",
   "y", "Y", "yes", "Yes", "YES", "on", "On", "ON", "n", "N", "no", "No", "NO", "off", "Off", "OFF"]

/-- Characters that mean something at the start of a value. -/
def isIndicator (c : Char) : Bool := "*&[\x7b\x7d],!|>%'\"@ `".toList.contains c

/-- A number sign, a backslash, or a colon or a dash before a blank. -/
def marksInside : List Char → Bool
  | [] => false
  | '#' :: _ => true
  | '\\' :: _ => true
  | ':' :: ' ' :: _ => true
  | '-' :: ' ' :: _ => true
  | _ :: r => marksInside r

/-- Digits and colons only, and not a zero first. -/
def looksLikeTime (cs : List Char) : Bool :=
  cs.all (fun c => c = ':' || c.isDigit) && cs.head? ≠ some '0'

/-- Characters that could end an item inside brackets; a colon does not before a
slash. -/
def marksFlow : List Char → Bool
  | [] => false
  | ':' :: '/' :: r => marksFlow r
  | c :: r => c = ':' || c = ']' || c = '\x7d' || c = ',' || c = '\'' || c = '"' || marksFlow r

/-- The text would not be read back as it stands. -/
def needsQuotes (flow : Bool) (s : String) : Bool :=
  let cs := s.toList
  cs.isEmpty || (flow && marksFlow cs) || reservedWords.contains s || (Reader.number? s).isSome ||
    cs.head?.any isIndicator || cs.getLast?.any (fun c => c = ':' || c = ' ') ||
    looksLikeTime cs || marksInside cs

/-- A text, between quotes if it needs them. -/
def yamlText (flow : Bool) (s : String) : String := if needsQuotes flow s then Text.quote s else s

/-- A number; one without a fraction keeps a point. -/
def yamlNumber (x : Float) : String :=
  if x.isNaN then ".nan"
  else if x.isInf then (if x < 0 then "-.inf" else ".inf")
  else
    let t := Number.general x
    if t.contains '.' || t.contains 'e' then t else t ++ ".0"

/-- The text of a scalar, if the value is one; empty lists and maps count. -/
def yamlScalar? (flow : Bool) : Document → Option String
  | .null => some "null"
  | .bool b => some (if b then "true" else "false")
  | .int i => some (toString i)
  | .float x => some (yamlNumber x)
  | .text s => some (yamlText flow s)
  | .list [] => some "[]"
  | .map [] => some "\x7b\x7d"
  | _ => none

/-! ## on one line -/

mutual

/-- The value inside brackets on one line. -/
def yamlFlow : Document → String
  | .list xs => "[" ++ ", ".intercalate (flowTexts xs) ++ "]"
  | .map es =>
    "\x7b" ++ ", ".intercalate (((flowPairs es).mergeSort fun a b => a.1 ≤ b.1).map (·.2)) ++ "\x7d"
  | d => (yamlScalar? true d).getD ""

def flowTexts : List Document → List String
  | [] => []
  | d :: ds => yamlFlow d :: flowTexts ds

def flowPairs : List (String × Document) → List (String × String)
  | [] => []
  | (k, d) :: es => (k, yamlText true k ++ ": " ++ yamlFlow d) :: flowPairs es

end

/-! ## on many lines -/

/-- The lines of an item: a dash before the first, blanks before the others. -/
def itemLines : List String → List String
  | [] => ["-"]
  | l :: ls => ("- " ++ l) :: ls.map ("  " ++ ·)

mutual

/-- The lines of a list or a map, without the indentation of the value itself. -/
def yamlLines (indent : Nat) : Document → List String
  | .list (x :: xs) => listLines indent (x :: xs)
  | .map (e :: es) =>
    ((entryLines indent (e :: es)).mergeSort fun a b => a.1 ≤ b.1).flatMap (·.2)
  | d => [(yamlScalar? false d).getD ""]

def listLines (indent : Nat) : List Document → List String
  | [] => []
  | d :: ds => itemLines (yamlLines indent d) ++ listLines indent ds

/-- The lines of each entry, with its key. -/
def entryLines (indent : Nat) : List (String × Document) → List (String × List String)
  | [] => []
  | (k, d) :: es =>
    let key := yamlText false k ++ ":"
    let lines := yamlLines indent d
    let entry := match d with
      | .list (_ :: _) => key :: lines
      | .map (_ :: _) => key :: lines.map (Text.blanks indent ++ ·)
      | _ => [key ++ " " ++ " ".intercalate lines]
    (k, entry) :: entryLines indent es

end

/-- The value as YAML; an indentation of zero writes it on one line. -/
def yaml (indent : Nat) (d : Document) : String :=
  if indent = 0 then yamlFlow d ++ "\n" else String.join ((yamlLines indent d).map (· ++ "\n"))

end EffectChain.Document
