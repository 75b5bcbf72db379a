import EffectChain.Graph.Allocate
import EffectChain.Hash.Fingerprint
import EffectChain.Render.Condition

/-!
# EffectChain.Render.Executor

The renderer: it holds one graph and the stored textures it needs.

Persistent surfaces have two buffers, one that is read and one that is written.
Loading a graph replaces the one before only when every program, condition and
texture is accepted.
-/

namespace EffectChain

/-- A persistent surface and its buffers.  A source has one buffer, which is both
read and written. -/
structure BufferPair where
  id : String
  spec : TextureSpec
  read : String
  write : String
  /-- A feedback that was written in the frame. -/
  dirty : Bool := false
  deriving Repr, Inhabited, DecidableEq

namespace BufferPair

def ofSurface (id : String) (spec : TextureSpec) : BufferPair :=
  { id, spec, read := id ++ "#0", write := if Graph.isSource id then id ++ "#0" else id ++ "#1" }

/-- Readers see the frame before, all through a frame. -/
def isFeedback (b : BufferPair) : Bool := Graph.isFeedback b.id

def swap (b : BufferPair) : BufferPair := { b with read := b.write, write := b.read }

/-- The stored textures of the surface. -/
def buffers (b : BufferPair) : List String :=
  if b.read = b.write then [b.read] else [b.read, b.write]

end BufferPair

/-- A graph that runs. -/
structure LoadedGraph where
  graph : Graph
  alloc : Graph.Allocation
  passes : List LoadedPass
  /-- The stored texture of each slot. -/
  slots : List String
  deriving Repr, Inhabited

/-- A renderer over a backend. -/
structure Executor (β : Type) where
  backend : β
  width : Int
  height : Int
  current : Option LoadedGraph := none
  surfaces : Table BufferPair := {}
  /-- Every stored texture, as it was asked for. -/
  textures : Table TextureSpec := {}
  /-- The hash of each program that was accepted. -/
  programs : Table UInt64 := {}
  frames : Nat := 0
  disposed : Bool := false
  deriving Repr, Inhabited

/-- What tells two shader programs apart. -/
def Shader.digest (s : Shader) : UInt64 :=
  Hash.hash (Bytes.ofString (s.entry ++ "\x00" ++ s.source))

namespace Executor

variable {β : Type} [Backend β]

/-- The size when none is asked for. -/
def defaultSize : Int × Int := (1280, 720)

/-- A size, unless it is empty. -/
def sizeOr (w h : Int) : Int × Int := if w > 0 && h > 0 then (w, h) else defaultSize

/-- One call to the backend. -/
def submit (e : Executor β) (c : Request) : Executor β × Option Refusal :=
  let (backend, r) := Backend.submit e.backend c
  ({ e with backend }, r)

/-- Starts a backend; the state of the backend comes back in any case. -/
def start (backend : β) (width height : Int) : β × Except RenderError (Executor β) :=
  let (width, height) := sizeOr width height
  let (backend, r) := runList Backend.submit backend [Request.init, .resize width height]
  match r with
  | some r => (backend, .error (.start r))
  | none => (backend, .ok { backend, width, height })

/-! ## loading -/

/-- The stored texture of a slot. -/
def slotId (i : Nat) (spec : TextureSpec) : String := Graph.slotName i ++ "@" ++ spec.key

/-- The programs that differ from the accepted ones. -/
def changedPrograms (e : Executor β) (g : Graph) : List (String × Shader) :=
  g.programs.entries.filter fun (id, s) => e.programs.get? id ≠ some s.digest

/-- Compiles one program. -/
def compileProgram (e : Executor β) (p : String × Shader) : Executor β × Option RenderError :=
  let (e, r) := e.submit (.compileProgram p.1 p.2)
  (e, r.map (RenderError.ofRefusal "R001" "CompileProgram" p.1))

/-- Compiles the programs of a graph.  They are remembered when all are accepted. -/
def compilePrograms (e : Executor β) (g : Graph) : Executor β × Option RenderError :=
  let changed := e.changedPrograms g
  match runList compileProgram e changed with
  | (e, some err) => (e, some err)
  | (e, none) =>
    ({ e with programs := changed.foldl (fun t (id, s) => t.insert id s.digest) e.programs }, none)

/-- Destroys textures without looking at refusals. -/
def discard (e : Executor β) (ids : List String) : Executor β :=
  ids.foldl (fun e id =>
    let (e, _) := e.submit (.destroyTexture id)
    { e with textures := e.textures.erase id }) e

/-- Creates a texture. -/
def createTexture (e : Executor β) (t : String × TextureSpec) : Executor β × Option RenderError :=
  match e.submit (.createTexture t.1 (t.2.sized e.width e.height)) with
  | (e, some r) => (e, some (RenderError.ofRefusal "R004" "CreateTexture" t.1 r))
  | (e, none) => ({ e with textures := e.textures.insert t.1 t.2 }, none)

/-- Creates textures in order.  When one is refused, those before it are destroyed
again. -/
def createTextures (e : Executor β) (done : List String) :
    List (String × TextureSpec) → Executor β × Option RenderError
  | [] => (e, none)
  | t :: ts =>
    match e.createTexture t with
    | (e, none) => e.createTextures (done ++ [t.1]) ts
    | (e, some err) => (e.discard done, some err)

/-- The surfaces of a graph that are not there yet. -/
def newSurfaces (e : Executor β) (g : Graph) : List BufferPair :=
  (g.surfaces.filter (!e.surfaces.contains ·)).map fun id =>
    .ofSurface id (g.textures.getD id .surface)

/-- The textures a graph needs that are not there yet: its slots, then the buffers
of its surfaces. -/
def newTextures (e : Executor β) (slots : List (String × TextureSpec)) (added : List BufferPair) :
    List (String × TextureSpec) :=
  slots.filter (!e.textures.contains ·.1) ++ added.flatMap fun b => b.buffers.map (·, b.spec)

/-- Destroys the slots that are no longer in use. -/
def releaseSlots (e : Executor β) (keep : List String) : Executor β :=
  let live := keep ++ e.surfaces.values.flatMap BufferPair.buffers
  e.discard (e.textures.keys.filter (!live.contains ·))

/-- Makes a graph the running one.  Without an allocation the graph's own is used. -/
def load (e : Executor β) (g : Graph) (alloc : Option Graph.Allocation) :
    Executor β × Option RenderError :=
  let alloc := alloc.getD g.allocate
  if e.disposed then (e, some .disposed)
  else match e.compilePrograms g with
    | (e, some err) => (e, some err)
    | (e, none) =>
      match g.passes.mapM LoadedPass.read with
      | .error err => (e, some err)
      | .ok passes =>
        let slots := alloc.specs.zipIdx.map fun (spec, i) => (slotId i spec, spec)
        let added := e.newSurfaces g
        match e.createTextures [] (e.newTextures slots added) with
        | (e, some err) => (e, some err)
        | (e, none) =>
          let ids := slots.map (·.1)
          let e := { e with
            surfaces := added.foldl (fun t (b : BufferPair) => t.insert b.id b) e.surfaces
            current := some { graph := g, alloc, passes, slots := ids } }
          (e.releaseSlots ids, none)

/-! ## the size, and the end -/

/-- Creates a texture anew for the size of the renderer. -/
def recreate (e : Executor β) (t : String × TextureSpec) : Executor β × Option RenderError :=
  match e.submit (.destroyTexture t.1) with
  | (e, some r) => (e, some (RenderError.ofRefusal "R004" "DestroyTexture" t.1 r))
  | (e, none) =>
    let (e, r) := e.submit (.createTexture t.1 (t.2.sized e.width e.height))
    (e, r.map (RenderError.ofRefusal "R004" "CreateTexture" t.1))

/-- Changes the size, and with it every texture that follows it. -/
def resize (e : Executor β) (width height : Int) : Executor β × Option RenderError :=
  if e.disposed then (e, some .disposed)
  else match e.submit (.resize width height) with
    | (e, some r) => (e, some (.refused r))
    | (e, none) =>
      runList recreate { e with width, height } (e.textures.entries.filter (·.2.follows))

/-- Destroys every texture and closes the backend.  A second time does nothing. -/
def dispose (e : Executor β) : Executor β × Option RenderError :=
  if e.disposed then (e, none)
  else
    let e := e.discard e.textures.keys
    let (e, r) :=
      { e with disposed := true, textures := {}, surfaces := {}, current := none }.submit .close
    (e, r.map .refused)

end Executor

end EffectChain
