import EffectChain.Render.Backend

/-!
# EffectChain.Render.Recorder

A backend that draws nothing: it remembers the calls and checks that what they
refer to is there.  Calls can be made to fail.  `ShaderCheck` stands before a
backend and refuses shader programs that are not well formed.
-/

namespace EffectChain

/-- A backend that remembers its calls. -/
structure Recorder where
  /-- The calls, the last one first. -/
  history : List Request := []
  textures : Table TextureSpec := {}
  programs : Table Shader := {}
  /-- Reasons to fail, by method and subject. -/
  failures : List ((String × String) × String) := []
  closed : Bool := false
  width : Int := 0
  height : Int := 0
  deriving Repr, Inhabited

namespace Recorder

/-- The calls in the order they were made. -/
def calls (r : Recorder) : List Request := r.history.reverse

/-- Makes the calls of a method fail, all of them when the subject is empty.
Without a reason they succeed again. -/
def failOn (r : Recorder) (method subject : String) (reason : Option String) : Recorder :=
  let others := r.failures.filter (·.1 ≠ (method, subject))
  { r with failures := match reason with
      | some t => ((method, subject), t) :: others
      | none => others }

/-- Forgets the calls and keeps all else. -/
def forget (r : Recorder) : Recorder := { r with history := [] }

/-- The number of calls of each method. -/
def counts (r : Recorder) : Table Nat :=
  r.history.foldl (fun t c => t.insert c.method (t.getD c.method 0 + 1)) {}

/-- The reason a call is made to fail. -/
def failure? (r : Recorder) (c : Request) : Option Refusal :=
  ((r.failures.lookup (c.method, c.subject)).or (r.failures.lookup (c.method, ""))).map
    (.injected c.method c.subject)

def missing? (r : Recorder) (pass : Option String) (ids : List String) : Option Refusal :=
  (ids.find? (!r.textures.contains ·)).map (.unknownTexture pass)

/-- What a call does once it is remembered and not made to fail. -/
def effect (r : Recorder) : Request → Recorder × Option Refusal
  | .createTexture id spec =>
    if r.textures.contains id then (r, some (.textureExists id))
    else ({ r with textures := r.textures.insert id spec }, none)
  | .destroyTexture id =>
    if r.textures.contains id then ({ r with textures := r.textures.erase id }, none)
    else (r, some (.unknownTexture none id))
  | .compileProgram id shader => ({ r with programs := r.programs.insert id shader }, none)
  | .executePass d _ =>
    if r.programs.contains d.program
      then (r, r.missing? (some d.pass) (d.inputs.values ++ d.outputs.values))
    else (r, some (.unknownProgram d.program))
  | .resize w h => ({ r with width := w, height := h }, none)
  | .copyTexture source target => (r, r.missing? none [source, target])
  | .present id => (r, r.missing? none [id])
  | .close => ({ r with closed := true }, none)
  | .init | .beginFrame _ | .endFrame => (r, none)

/-- A closed recorder remembers nothing more but that it is closed again. -/
def submit (r : Recorder) (c : Request) : Recorder × Option Refusal :=
  if r.closed && c.method ≠ "Close" then (r, some (.closed c.method))
  else
    let r := { r with history := c :: r.history }
    match r.failure? c with
    | some e => (if c.method = "Close" then { r with closed := true } else r, some e)
    | none => r.effect c

instance : Backend Recorder := ⟨submit⟩

end Recorder

/-! ## checking shaders -/

namespace Shader

/-- The words a declaration of a shader module starts with. -/
def declarationWords : List String :=
  ["fn", "var", "struct", "const", "let", "alias", "override", "enable", "requires", "diagnostic",
    "const_assert"]

/-- The text after blanks and comments. -/
def skipComments : (fuel : Nat) → List Char → List Char
  | 0, cs => cs
  | fuel + 1, '/' :: '/' :: r => skipComments fuel (r.dropWhile (· ≠ '\n'))
  | fuel + 1, c :: r => if c.isWhitespace then skipComments fuel r else c :: r
  | _ + 1, [] => []

/-- The module is empty or starts with a declaration. -/
def startsWell (wgsl : String) : Bool :=
  match skipComments wgsl.length wgsl.toList with
  | [] => true
  | '@' :: _ => true
  | ';' :: _ => true
  | cs => declarationWords.contains (String.ofList (cs.takeWhile fun c => c.isAlphanum || c = '_'))

end Shader

/-- A backend with a check of shader programs before it. -/
structure ShaderCheck (β : Type) where
  inner : β
  enabled : Bool := true
  /-- The programs that passed, in increasing order. -/
  passed : Table Unit := {}
  deriving Repr, Inhabited

namespace ShaderCheck

variable {β : Type} [Backend β]

/-- Programs without text in the checked language go through as they are. -/
def submit (s : ShaderCheck β) (c : Request) : ShaderCheck β × Option Refusal :=
  let pass := fun (s : ShaderCheck β) =>
    let (inner, e) := Backend.submit s.inner c
    ({ s with inner }, e)
  match c with
  | .compileProgram id shader =>
    if !s.enabled || shader.wgsl = "" then pass s
    else if Shader.startsWell shader.wgsl then pass { s with passed := s.passed.insert id () }
    else (s, some (.badShader id "expected a declaration"))
  | _ => pass s

instance : Backend (ShaderCheck β) := ⟨submit⟩

end ShaderCheck

end EffectChain
