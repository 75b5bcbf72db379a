import EffectChain.Data.Table
import EffectChain.Document.Read

/-!
# EffectChain.Command.Config

Configuration files: values of flags by name.  A file that cannot be read is an
empty one.
-/

namespace EffectChain

/-- Values of flags by name. -/
structure Config where
  values : Table Document := {}
  deriving Repr, Inhabited

namespace Config

mutual

/-- A value as it is given to a flag: numbers are texts, also in lists. -/
def flagValue : Document → Document
  | .int i => .text (toString i)
  | .float x => .text (Number.plain x)
  | .list xs => .list (flagValues xs)
  | d => d

def flagValues : List Document → List Document
  | [] => []
  | d :: ds => flagValue d :: flagValues ds

end

/-- The configuration a text stands for. -/
def read (text : String) : Config :=
  match Document.read? text with
  | some (.map es) => ⟨.ofList (es.map fun (k, d) => (k, flagValue d))⟩
  | _ => {}

/-- The value of a flag, whose hyphens may be written as underscores. -/
def get? (c : Config) (flag : String) : Option Document :=
  (c.values.get? flag).or (c.values.get? (flag.map fun ch => if ch = '-' then '_' else ch))

end Config

end EffectChain
