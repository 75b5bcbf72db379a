import EffectChain.Command.Config
import EffectChain.Document.Json
import EffectChain.Number.Duration
import EffectChain.Number.Whole
import EffectChain.Storage.Files
import EffectChain.Text.Basic

/-!
# EffectChain.Command.Flags

Flags of a command line: their kinds, the values they take, and the reasons for
which a word is no value.
-/

namespace EffectChain

/-- What a flag takes. -/
inductive FlagKind where
  | switch
  | text
  /-- A word of a fixed vocabulary. -/
  | word
  /-- A path, made absolute. -/
  | path
  /-- A path of a file that has to be there. -/
  | file
  | whole
  | duration
  /-- Texts, in one word between commas or in several. -/
  | texts
  /-- Paths of files that have to be there. -/
  | files
  deriving DecidableEq, Repr, Inhabited

/-- What the kind is called when a value is missing. -/
def FlagKind.noun : FlagKind → String
  | .switch => "bool"
  | .text | .texts => "string"
  | .word => "value"
  | .path | .file | .files => "file"
  | .whole => "int"
  | .duration => "duration"

/-- The value of a flag. -/
inductive FlagValue where
  | switch (on : Bool)
  | text (value : String)
  | whole (value : Int)
  | duration (ns : Int)
  | texts (values : List String)
  deriving DecidableEq, Repr, Inhabited

/-- A flag, or an argument by its place. -/
structure Flag where
  name : String
  kind : FlagKind
  short : Option Char := none
  /-- `--no-` before its name turns it off. -/
  negatable : Bool := false
  /-- The word it takes when it is not given. -/
  default : Option String := none
  /-- The only values it may have; all when there are none. -/
  choices : List String := []
  /-- An argument by its place. -/
  positional : Bool := false
  deriving DecidableEq, Repr, Inhabited

/-- The name of a flag in messages. -/
def Flag.title (f : Flag) : String :=
  if f.positional then "[<" ++ f.name ++ ">]" else "--" ++ f.name

/-! ## words -/

/-- What a word of a command line has been found to be. -/
inductive WordKind where
  | untyped
  | flag
  | flagValue
  | short
  | shortTail
  | positional
  deriving DecidableEq, Repr, Inhabited

/-- A word of a command line. -/
structure Word where
  kind : WordKind
  text : String
  deriving DecidableEq, Repr, Inhabited

namespace Word

/-- What a word looks like. -/
def looks (w : Word) : WordKind :=
  if w.kind ≠ .untyped then w.kind
  else if w.text.startsWith "--" then .flag
  else if w.text = "-" then .positional
  else if w.text.startsWith "-" then .short
  else .untyped

/-- Whether a word can be a value. -/
def isValue (w : Word) : Bool :=
  match w.looks with
  | .flag | .short => false
  | _ => true

end Word

/-- What a word is called in messages. -/
def WordKind.noun : WordKind → String
  | .untyped => "untyped"
  | .flag => "long flag"
  | .flagValue => "flag value"
  | .short => "short flag"
  | .shortTail => "short flag remainder"
  | .positional => "positional argument"

/-! ## refusals -/

/-- Why a command line is refused. -/
inductive UsageError where
  | unknownFlag (flag : String) (near : List String)
  | unexpectedArgument (text : String)
  /-- There is no word for the value. -/
  | noValue (flag : Flag)
  /-- The word for the value is another flag. -/
  | notValue (flag : Flag) (word : Word)
  | noList (flag : Flag)
  | notTruth (flag : Flag) (text : String)
  | notWhole (flag : Flag) (text : String)
  | notDuration (flag : Flag) (text : String) (fault : Duration.Fault)
  | noFile (flag : Flag) (error : FileError)
  | isDirectory (flag : Flag) (path : String)
  | notAmong (flag : Flag) (text : String)
  /-- A configured value of another kind. -/
  | wrongKind (flag : Flag) (value : Document)
  deriving Repr, Inhabited

namespace UsageError

/-- The word for the kind of a configured value. -/
def kindName : Document → String
  | .null => "null"
  | .bool _ => "bool"
  | .int _ | .float _ => "number"
  | .text _ => "string"
  | .list _ => "array"
  | .map _ => "object"

def message : UsageError → String
  | .unknownFlag flag [] => "unknown flag " ++ flag
  | .unknownFlag flag [x] => "unknown flag " ++ flag ++ ", did you mean " ++ Text.quote x ++ "?"
  | .unknownFlag flag xs =>
    "unknown flag " ++ flag ++ ", did you mean one of " ++ ", ".intercalate (xs.map Text.quote) ++
      "?"
  | .unexpectedArgument text => "unexpected argument " ++ text
  | .noValue f => f.title ++ ": expected " ++ f.kind.noun ++ " value but got \"EOL\" (<EOL>)"
  | .notValue f w =>
    f.title ++ ": expected " ++ f.kind.noun ++ " value but got " ++ Text.quote w.text ++ " (" ++
      w.looks.noun ++ "); perhaps try " ++ f.title ++ "=" ++ Text.quote w.text ++ "?"
  | .noList f => f.title ++ ": missing value, expecting \"<arg>,...\""
  | .notTruth f text =>
    f.title ++ ": bool value must be true, 1, yes, false, 0 or no but got " ++ Text.quote text
  | .notWhole f text => f.title ++ ": expected a valid 64 bit int but got " ++ Text.quote text
  | .notDuration f text fault =>
    f.title ++ ": expected duration but got " ++ Text.quote text ++ ": " ++ fault.message text
  | .noFile f e => f.title ++ ": " ++ e.message
  | .isDirectory f path => f.title ++ ": " ++ Text.quote path ++ " exists but is a directory"
  | .notAmong f text =>
    f.title ++ " must be one of " ++ ",".intercalate (f.choices.map Text.quote) ++ " but got " ++
      Text.quote text
  | .wrongKind f d =>
    match f.kind with
    | .switch => f.title ++ ": expected bool but got " ++ d.json 0 ++ " (" ++ kindName d ++ ")"
    | .whole =>
        f.title ++ ": expected an int but got " ++ Text.quote d.shown ++ " (" ++ kindName d ++ ")"
    | .duration => f.title ++ ": expected duration but got " ++ Text.quote d.shown
    | _ => f.title ++ ": expected string but got " ++ d.json 0 ++ " (" ++ kindName d ++ ")"

end UsageError

/-! ## values -/

namespace Flag

/-- A truth value as switches take it. -/
def truth? (s : String) : Option Bool :=
  match Text.lower s with
  | "true" | "1" | "yes" => some true
  | "false" | "0" | "no" => some false
  | _ => none

/-- The value of a flag that takes one word, from its text. -/
def decode (f : Flag) (files : Files) (s : String) : Except UsageError FlagValue :=
  match f.kind with
  | .switch => match truth? s with
    | some b => .ok (.switch b)
    | none => .error (.notTruth f (Text.lower s))
  | .whole => match Number.wholeBased? s with
    | some i => .ok (.whole i)
    | none => .error (.notWhole f s)
  | .duration => match Duration.read s with
    | .ok ns => .ok (.duration ns)
    | .error fault => .error (.notDuration f s fault)
  | .path => .ok (.text (if s = "-" then s else files.absolute s))
  | .file | .files =>
    if s = "-" then .ok (.text s)
    else
      let path := files.absolute s
      match files.locate path with
      | .error fault => .error (.noFile f ⟨"stat", path, fault⟩)
      | .ok k => if files.isDirKey k then .error (.isDirectory f path) else .ok (.text path)
  | .text | .word | .texts => .ok (.text s)

/-- The texts between commas; a backslash takes a comma as it is, and nothing after
the last comma is no text. -/
def splitCommas : (text : List Char) → List Char → List String
  | text, [] => if text.isEmpty then [] else [String.ofList text.reverse]
  | text, ['\\'] => [String.ofList ('\\' :: text).reverse]
  | text, '\\' :: c :: cs => splitCommas (if c = ',' then c :: text else c :: '\\' :: text) cs
  | text, ',' :: cs => String.ofList text.reverse :: splitCommas [] cs
  | text, c :: cs => splitCommas (c :: text) cs

/-- The values of a flag that takes many, from one word. -/
def decodeList (f : Flag) (files : Files) (w : Word) : Except UsageError (List String) :=
  (splitCommas [] w.text.toList).mapM fun s => do
    let part : Word := { w with text := s }
    if !part.isValue then .error (.notValue f part)
    else match ← f.decode files s with
      | .text t => .ok t
      | _ => .ok s

def isList (f : Flag) : Bool := f.kind = .texts || f.kind = .files

/-- The value of a flag from the words after it, and the words left.  A flag that
takes many adds to the values it has. -/
def take (f : Flag) (files : Files) (old : Option FlagValue) (words : List Word) :
    Except UsageError (FlagValue × List Word) :=
  if f.isList then
    match words with
    | [] => .error (.noList f)
    | w :: rest => do
      let more ← f.decodeList files w
      let before := match old with
        | some (.texts xs) => xs
        | _ => []
      .ok (.texts (before ++ more), rest)
  else if f.kind = .switch then
    match words with
    | ⟨.flagValue, s⟩ :: rest => do .ok (← f.decode files s, rest)
    | words => .ok (.switch true, words)
  else
    match words with
    | [] => .error (.noValue f)
    | w :: rest => do
      if w.isValue then .ok (← f.decode files w.text, rest) else .error (.notValue f w)

/-- The value of a flag from a configuration. -/
def configured (f : Flag) (files : Files) (d : Document) : Except UsageError FlagValue :=
  match d with
  | .text s => do
    if f.isList then .ok (.texts (← f.decodeList files ⟨.flagValue, s⟩)) else f.decode files s
  | .bool b =>
    if f.kind = .switch then .ok (.switch b)
    else .error (.wrongKind f (if f.isList then .list [d] else d))
  | .list xs =>
    if f.isList then
      (xs.mapM fun x => match x with
        | Document.text s => Except.ok s
        | x => .error (UsageError.wrongKind f x)).map .texts
    else .error (.wrongKind f d)
  | d => .error (.wrongKind f d)

/-- The value of a flag that is not given. -/
def initial (f : Flag) (files : Files) : FlagValue :=
  let empty : FlagValue := match f.kind with
    | .switch => .switch false
    | .whole => .whole 0
    | .duration => .duration 0
    | .texts | .files => .texts []
    | _ => .text ""
  match f.default with
  | none => empty
  | some s => (f.decode files s).toOption.getD empty

end Flag

end EffectChain
