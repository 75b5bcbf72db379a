import EffectChain.Command.Flags
import EffectChain.Text.Basic

/-!
# EffectChain.Command.Arguments

Words of a command line read as a command with flags and arguments.

Flags may stand anywhere; the ones of a command only behind its name.  A command
line that names no command is one of the default command.  A value comes from the
command line, else from the configuration, else from the flag itself.
-/

namespace EffectChain

/-- A command with the flags and the arguments it takes. -/
structure CommandSpec where
  name : String
  flags : List Flag := []
  args : List Flag := []
  deriving DecidableEq, Repr, Inhabited

/-- A program with commands. -/
structure Grammar where
  flags : List Flag
  commands : List CommandSpec
  /-- The command of a command line that names none. -/
  default : CommandSpec
  deriving Repr, Inhabited

/-- A command line read so far. -/
structure Invocation where
  command : Option CommandSpec := none
  /-- The values that were given, by command and flag. -/
  values : Table FlagValue := {}
  /-- The switches turned off by name. -/
  negated : List String := []
  /-- How many arguments were given. -/
  taken : Nat := 0
  deriving Repr, Inhabited

namespace Invocation

/-- The name a value is kept under. -/
def key (command : String) (f : Flag) : String := command ++ "." ++ f.name

/-- The flags in reach, each with the command it belongs to. -/
def flags (i : Invocation) (g : Grammar) : List (String × Flag) :=
  let c := i.command.getD g.default
  g.flags.map ("", ·) ++ c.flags.map (c.name, ·)

/-- The ways a flag is written. -/
def spellings (f : Flag) : List String :=
  ("--" ++ f.name) :: (f.short.map fun c => "-" ++ String.singleton c).toList

/-- The names that are close to one that is not known. -/
def near (i : Invocation) (g : Grammar) (word : String) : List String :=
  ((i.flags g).flatMap fun (_, f) => spellings f).filter fun s =>
    s.startsWith word || Text.distance s word ≤ 2

/-- Whether a flag is turned off by a word. -/
def negates (f : Flag) (word : String) : Bool := f.negatable && word = "--no-" ++ f.name

/-- Reads a flag and its value. -/
def flag (i : Invocation) (g : Grammar) (files : Files) (word : String) (rest : List Word) :
    Except UsageError (Invocation × List Word) :=
  match (i.flags g).find? fun (_, f) => (spellings f).contains word || negates f word with
  | none => .error (.unknownFlag word (i.near g word))
  | some (command, f) => do
    let k := key command f
    let negated := if negates f word then k :: i.negated else i.negated
    let (v, rest) ← f.take files (i.values.get? k) rest
    let v := match v with
      | .switch b => .switch (b != negated.contains k)
      | v => v
    .ok ({ i with values := i.values.insert k v, negated }, rest)

/-- Reads a word that is no flag: an argument of the command, or the name of one. -/
def argument (i : Invocation) (g : Grammar) (files : Files) (w : Word) :
    Except UsageError Invocation :=
  let take := fun (i : Invocation) (c : CommandSpec) =>
    match c.args[i.taken]? with
    | none => Except.error (UsageError.unexpectedArgument w.text)
    | some a => do
      let v ← a.decode files w.text
      .ok { i with command := some c, values := i.values.insert (key c.name a) v,
                   taken := i.taken + 1 }
  match i.command with
  | some c => take i c
  | none =>
    match g.commands.find? (·.name = w.text) with
    | some c => .ok { i with command := some c }
    | none => take i g.default

/-- Finds out what a word is; `none` when it stays as it is. -/
def split (w : Word) (rest : List Word) : List Word :=
  let cs := w.text.toList
  match w.kind, cs with
  | .untyped, '-' :: '-' :: [] => rest.map fun w => { w with kind := .positional }
  | .untyped, '-' :: '-' :: cs =>
    let name := String.ofList (cs.takeWhile (· ≠ '='))
    match cs.dropWhile (· ≠ '=') with
    | [] => ⟨.flag, "--" ++ name⟩ :: rest
    | _ :: value => ⟨.flag, "--" ++ name⟩ :: ⟨.flagValue, String.ofList value⟩ :: rest
  | .untyped, ['-'] => ⟨.positional, "-"⟩ :: rest
  | .untyped, '-' :: c :: cs | .shortTail, c :: cs =>
    let tail := if cs.isEmpty then rest else ⟨.shortTail, String.ofList cs⟩ :: rest
    ⟨.short, "-" ++ String.singleton c⟩ :: tail
  | _, _ => { w with kind := .positional } :: rest

/-- Reads the words of a command line; the fuel bounds the number of steps. -/
def readWords (g : Grammar) (files : Files) : (fuel : Nat) → Invocation → List Word →
    Except UsageError Invocation
  | 0, i, _ => .ok i
  | _ + 1, i, [] => .ok i
  | fuel + 1, i, w :: rest =>
    match w.kind with
    | .untyped | .shortTail => readWords g files fuel i (split w rest)
    | .flag | .short => do
      let (i, rest) ← i.flag g files w.text rest
      readWords g files fuel i rest
    | .flagValue | .positional => do
      readWords g files fuel (← i.argument g files w) rest

/-- Reads the words of a command line.  A word takes a step to find out what it is
and one to read it, for each of its characters. -/
def read (g : Grammar) (files : Files) (args : List String) : Except UsageError Invocation :=
  let fuel := args.foldl (fun n a => n + 2 * a.length + 3) 1
  readWords g files fuel {} (args.map fun a => ⟨.untyped, a⟩)

/-! ## values -/

/-- Takes the values that were not given from a configuration. -/
def configure (i : Invocation) (g : Grammar) (files : Files) (config : Config) :
    Except UsageError Invocation :=
  (i.flags g).foldlM (fun i (command, f) =>
    let k := key command f
    match i.values.get? k, config.get? f.name with
    | some _, _ | none, none | none, some .null => .ok i
    | none, some d => do .ok { i with values := i.values.insert k (← f.configured files d) }) i

/-- The value of a flag. -/
def value (i : Invocation) (files : Files) (command : String) (f : Flag) : FlagValue :=
  (i.values.get? (key command f)).getD (f.initial files)

/-- The first flag whose value is not among its choices. -/
def checkChoices (i : Invocation) (g : Grammar) (files : Files) : Except UsageError Unit :=
  (i.flags g).forM fun (command, f) =>
    match i.value files command f with
    | .text s =>
        if f.choices.isEmpty || f.choices.contains s then .ok () else .error (.notAmong f s)
    | _ => .ok ()

end Invocation

end EffectChain
