import EffectChain.Fuzzy.Match
import EffectChain.Live.Word
import EffectChain.Program.Surface
import EffectChain.Registry.Operations
import EffectChain.Text.Styled
import EffectChain.Value.Dynamic

/-!
# EffectChain.Live.Completion

What can be called and with which parameters, operations as well as the waves,
vectors and functions of the language itself; and what a word can be completed to.
-/

namespace EffectChain

/-- Something that can be called, with its parameters as they are shown. -/
structure Signature where
  name : String
  params : List String
  deriving DecidableEq, Repr, Inhabited

/-- An argument with its type and its default. -/
def ArgSpec.text (a : ArgSpec) : String :=
  a.name ++ ": " ++ a.type.text ++
    match a.default with
    | .null => ""
    | d => " = " ++ d.shown

namespace Signature

/-- What can be called without being an operation. -/
def builtin : List Signature :=
  (["sine", "tri", "saw", "square"].map (⟨·, ["min", "max", "speed", "offset"]⟩)) ++
  [⟨"vec3", ["x", "y", "z"]⟩, ⟨"vec4", ["x", "y", "z", "w"]⟩] ++
  (["out", "render"].map (⟨·, ["surface"]⟩)) ++
  (["sin", "cos", "tan", "sqrt", "fract"].map (⟨·, ["x"]⟩)) ++
  [⟨"pow", ["x", "y"]⟩, ⟨"mix", ["a", "b", "t"]⟩, ⟨"clamp", ["x", "lo", "hi"]⟩]

/-- The signature of what a name calls, where bare names are looked up in the
namespaces `search` first. -/
def lookup? (r : Registry) (search : List String) (name : String) : Option Signature :=
  (builtin.find? (·.name = name)).or do
    let record ← r.namespaces.resolve name (some search)
    let op ← r.ops.lookup? record.canonical
    return ⟨name, op.args.map (·.text)⟩

/-- The signature in one line. -/
def text (s : Signature) : String := s.name ++ "(" ++ ", ".intercalate s.params ++ ")"

/-- The signature as a hint on a terminal. -/
def hint (s : Signature) : String :=
  text ⟨Text.styled s.name, s.params.map Text.styled⟩

/-- The position of the parameter that an argument is for: the one with its keyword,
else the one at its position. -/
def param? (s : Signature) (c : OpenCall) : Option Nat :=
  if c.keyword = "" then some c.arg
  else s.params.findIdx? fun p => p = c.keyword || p.startsWith (c.keyword ++ ":")

end Signature

end EffectChain

namespace EffectChain.Completion

/-- Names in increasing order, each once. -/
def ordered (names : List String) : List String := Namespaces.sortNames names.eraseDups

/-- The bare names of the operations in the namespaces `search`, of all when there
are none.  After a call, operations that begin a chain do not count and `out` does. -/
def operations (r : Registry) (search : List String) (chained : Bool) : List String :=
  let names := r.namespaces.names.filterMap fun canonical => do
    let (space, name) ← Text.cut? '.' canonical
    if !search.isEmpty && !search.contains space then none
    else if chained && r.ops.isStarter canonical then none
    else some name
  ordered (if chained then names ++ ["out"] else names)

/-- The surfaces the language names. -/
def surfaces : List String :=
  (["o", "f", "s"].flatMap fun letter => (List.range 10).map fun d => letter ++ toString d).filter
    fun name => (Surface.ofName? name).isSome

/-- The names that a word in a context may stand for. -/
def candidates (r : Registry) (search : List String) : WordContext → List String
  | .chained => operations r search true
  | .free =>
    ordered (operations r search false ++ r.namespaces.spaces ++ keywords ++ stateFields ++
      surfaces ++ Signature.builtin.map (·.name))
  | .member parent =>
    if r.namespaces.has parent then
      r.namespaces.names.filterMap fun canonical =>
        (canonical.dropPrefix? (parent ++ ".")).map (·.toString)
    else
      ((r.enums.find? (Text.splitChar '.' parent)).map (·.names)).getD []

/-- The candidates that fit a word, the best first.  An empty word fits all
candidates when it follows a dot. -/
def select (context : WordContext) (word : String) (names : List String) : List String :=
  if word ≠ "" then (Fuzzy.find word names).map (·.text)
  else if context = .free then []
  else names

end EffectChain.Completion
