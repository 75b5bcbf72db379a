import EffectChain.Log.Line

/-!
# EffectChain.Log.Logger

A logger writes the records that are grave enough for it.  Values and groups
given to the logger itself come before those of a record.
-/

namespace EffectChain.Log

/-! ## colours -/

/-- A text in a colour of the terminal. -/
def coloured (colour : Nat) (s : String) : String :=
  "\x1b[" ++ toString colour ++ "m" ++ s ++ "\x1b[0m"

/-- The colour of a level. -/
def Level.colour (l : Level) : Nat :=
  if l.severity ≥ 8 then 31
  else if l.severity ≥ 4 then 33
  else if l.severity ≥ 0 then 32
  else if l.severity ≥ -4 then 34
  else 35

/-- A value in the colour of its kind. -/
def Value.colouredText (v : Value) : String :=
  match v.resolve with
  | .int i => coloured 33 (toString i)
  | .float x => coloured 33 (Number.general x)
  | .bool b => if b then coloured 32 "true" else coloured 31 "false"
  | .duration ns => coloured 35 (Duration.text ns)
  | .group as =>
    coloured 36 ("\x7b" ++ " ".intercalate (as.map fun (k, v) => k ++ "=" ++ v.resolve.shown) ++
      "\x7d")
  | v => coloured 36 v.shown

/-- A named value in colours, below its groups. -/
def colouredAttr (groups : List String) (a : Attr) : String :=
  coloured 90 (String.join (groups.map (· ++ ".")) ++ a.1) ++ "=" ++ a.2.colouredText

/-! ## the logger -/

/-- A logger with the values and groups it was given. -/
structure Logger where
  level : Level := .info
  format : Format := .json
  /-- Text lines are coloured. -/
  pretty : Bool := false
  /-- The values given so far, written once. -/
  given : String := ""
  /-- The groups the given values are under. -/
  path : String := ""
  groups : List String := []
  /-- How many of the groups the given values have started. -/
  opened : Nat := 0
  /-- The values given so far, for coloured lines. -/
  attrs : List Attr := []
  deriving Repr, Inhabited

namespace Logger

/-- Whether records of a level are written. -/
def enabled (l : Logger) (level : Level) : Bool := l.level.severity ≤ level.severity

def isColoured (l : Logger) : Bool := l.pretty && l.format = .text

/-- What stands before the first value after a text. -/
def sepAfter (l : Logger) (s : String) : String :=
  if s = "" || (l.format = .json && s.endsWith "\x7b") then "" else Line.between l.format

/-- The line with the groups that no given value has started. -/
def startGroups (l : Logger) (line : Line) : Line :=
  (l.groups.drop l.opened).foldl Line.openGroup line

/-- The logger that adds values to every record. -/
def withAttrs (l : Logger) (as : List Attr) : Logger :=
  if (Value.solid as).isEmpty then { l with attrs := l.attrs ++ as }
  else
    let line : Line :=
      { format := l.format, text := l.given, sep := l.sepAfter l.given, path := l.path }
    let (line, any) := (l.startGroups line).attrs (Value.settledMembers as)
    if any then
      { l with given := line.text, path := line.path, opened := l.groups.length,
               attrs := l.attrs ++ as }
    else { l with attrs := l.attrs ++ as }

/-- The logger whose values and records are in a group. -/
def withGroup (l : Logger) (name : String) : Logger := { l with groups := l.groups ++ [name] }

/-- A record without colours. -/
def plainLine (l : Logger) (level : Level) (message : String) (as : List Attr) : String :=
  let line : Line := { format := l.format, text := if l.format = .json then "\x7b" else "" }
  let line := (line.attrs [("level", .text (Text.upper level.name)), ("msg", .text message)]).1
  let line := if l.given = "" then line
    else { line with text := line.text ++ line.sep ++ l.given, sep := l.sepAfter l.given }
  let (line, opened) :=
    if as.isEmpty then (line, l.opened)
    else
      let (full, any) :=
        (l.startGroups { line with path := l.path }).attrs (Value.settledMembers as)
      if any then (full, l.groups.length) else (line, l.opened)
  line.text ++
    (if l.format = .json then String.join (List.replicate (opened + 1) "\x7d") else "") ++ "\n"

/-- A record in colours. -/
def colouredLine (l : Logger) (level : Level) (message : String) (as : List Attr) : String :=
  let name := level.name
  let head := coloured level.colour (name ++ Text.blanks (5 - name.length))
  let shown := ((("msg", .text message) :: l.attrs ++ as).filter fun a => !Attr.isEmpty a).map
    (colouredAttr l.groups)
  " ".intercalate (head :: shown) ++ "\n"

/-- The line of a record; empty when the record is not grave enough. -/
def record (l : Logger) (level : Level) (message : String) (as : List Attr) : String :=
  let as := Value.solid as
  if !l.enabled level then ""
  else if l.isColoured then l.colouredLine level message as
  else l.plainLine level message as

end Logger

end EffectChain.Log
