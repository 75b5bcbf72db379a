import EffectChain.Log.Record
import EffectChain.Text.Basic

/-!
# EffectChain.Command.LogFlags

The flags that set up logging, found before the command line is parsed: whatever
is wrong with the rest, errors are reported as these flags ask.
-/

namespace EffectChain

/-- A truth value as flags write it. -/
def truth? (s : String) : Option Bool :=
  if ["1", "t", "T", "TRUE", "true", "True"].contains s then some true
  else if ["0", "f", "F", "FALSE", "false", "False"].contains s then some false
  else none

/-- What the flags ask for. -/
structure LogFlags where
  level : String := ""
  format : String := ""
  caller : Bool := false
  pretty : Bool := true
  /-- The level and the format in force. -/
  inForce : Log.Level × Log.Format := (.info, .json)
  deriving Repr, Inhabited

namespace LogFlags

/-- The flags with a level. -/
def setLevel (f : LogFlags) (s : String) : LogFlags :=
  { f with level := s, inForce := (.ofText s, f.inForce.2) }

/-- The flags with a format. -/
def setFormat (f : LogFlags) (s : String) : LogFlags :=
  { f with format := s, inForce := (f.inForce.1, .ofText s) }

/-- The name of a flag for logging, and whether it is negated. -/
def name? (flag : String) : Option (String × Bool) :=
  if flag.startsWith "--log-" then some ((flag.drop 6).toString, false)
  else if flag.startsWith "--no-log-" then some ((flag.drop 9).toString, true)
  else none

/-- Whether a word can be the value of the flag before it. -/
def isValue (s : String) : Bool := s ≠ "" && !s.startsWith "-"

/-- A flag that is on or off. -/
def switch (f : LogFlags) (name : String) (negated : Bool) (value : Option String) : LogFlags :=
  match (value.map truth?).getD (some true) with
  | none => f
  | some v =>
    if name = "pretty" then { f with pretty := v != negated }
    else if name = "caller" then { f with caller := v != negated }
    else f

/-- One word that takes nothing from the next. -/
def alone (f : LogFlags) (arg : String) : LogFlags :=
  let (flag, value) := match Text.cut? '=' arg with
    | some (flag, value) => (flag, some value)
    | none => (arg, none)
  match name? flag, value with
  | some ("level", false), some v => f.setLevel v
  | some ("format", false), some v => f.setFormat v
  | some (name, negated), value => f.switch name negated value
  | none, _ => f

/-- A flag whose value is the next word. -/
def pair? (f : LogFlags) (arg next : String) : Option LogFlags :=
  if !isValue next then none
  else if arg = "--log-level" then some (f.setLevel next)
  else if arg = "--log-format" then some (f.setFormat next)
  else none

/-- Reads the flags from the words of a command line. -/
def scan (f : LogFlags) : List String → LogFlags
  | [] => f
  | [arg] => f.alone arg
  | arg :: next :: rest =>
    match f.pair? arg next with
    | some f => f.scan rest
    | none => (f.alone arg).scan (next :: rest)

end LogFlags

end EffectChain
