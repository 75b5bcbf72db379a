import EffectChain.Graph.Basic

/-!
# EffectChain.Graph.Allocate

Storage for the textures that live within a frame.  A texture is live from the
first to the last pass that touches it; after its last pass its slot is free for
textures with the same key.
-/

namespace EffectChain

namespace Graph

/-- The first and the last of the passes over which a texture is live. -/
structure Interval where
  first : Nat
  last : Nat
  deriving DecidableEq, Repr, Inhabited

/-- A slot for every texture that lives within a frame. -/
structure Allocation where
  slots : Table Nat := {}
  /-- What each slot stores. -/
  specs : List TextureSpec := []
  intervals : Table Interval := {}
  deriving Repr, Inhabited

namespace Allocation

/-- The name of the storage of a texture. -/
def physical? (a : Allocation) (id : String) : Option String := (a.slots.get? id).map slotName

/-- The number of slots. -/
def size (a : Allocation) : Nat := a.specs.length

/-- The textures in a slot, in increasing order. -/
def sharers (a : Allocation) (slot : Nat) : List String :=
  (a.slots.entries.filter (·.2 = slot)).map (·.1)

end Allocation

/-- The textures that a pass touches and that live within a frame. -/
def Pass.transients (p : Pass) : List String := p.textures.filter (!isPersistent ·)

/-- The interval of a texture after one more pass that touches it. -/
def touch (place : Nat) (live : Table Interval) (id : String) : Table Interval :=
  live.insert id ⟨((live.get? id).map (·.first)).getD place, place⟩

/-- The interval of every texture that lives within a frame. -/
def liveness (passes : List Pass) : Table Interval :=
  passes.zipIdx.foldl (fun live (p, i) => p.transients.foldl (touch i) live) {}

/-- A slot whose texture was last touched in pass `since`. -/
structure FreeSlot where
  slot : Nat
  since : Nat
  deriving DecidableEq, Repr, Inhabited

/-- The slots given so far and the free ones of each key. -/
structure Pool where
  slots : Table Nat := {}
  specs : List TextureSpec := []
  free : Table (List FreeSlot) := {}
  deriving Repr, Inhabited

namespace Pool

/-- Gives a texture a slot in pass `place`: the first one of its key that was free
before the pass, or a new one. -/
def place (textures : Table TextureSpec) (i : Nat) (pool : Pool) (id : String) : Pool :=
  if pool.slots.contains id then pool
  else
    let spec := textures.getD id .surface
    let free := pool.free.getD spec.key []
    match free.find? (·.since < i) with
    | some f =>
      { pool with
        slots := pool.slots.insert id f.slot
        free := pool.free.insert spec.key (free.eraseP (·.since < i)) }
    | none =>
      { pool with
        slots := pool.slots.insert id pool.specs.length
        specs := pool.specs ++ [spec] }

/-- Frees the slot of a texture that pass `i` touches last. -/
def release (live : Table Interval) (i : Nat) (pool : Pool) (id : String) : Pool :=
  match pool.slots.get? id, live.get? id with
  | some slot, some iv =>
    if iv.last = i then
      let key := (pool.specs.getD slot .surface).key
      { pool with free := pool.free.insert key (pool.free.getD key [] ++ [⟨slot, i⟩]) }
    else pool
  | _, _ => pool

/-- Gives slots to the textures of one pass, then frees those it was the last to
touch. -/
def pass (textures : Table TextureSpec) (live : Table Interval) (pool : Pool) (i : Nat) (p : Pass) :
    Pool :=
  p.transients.foldl (release live i) (p.transients.foldl (place textures i) pool)

end Pool

/-- Slots for all textures of the graph that live within a frame. -/
def allocate (g : Graph) : Allocation :=
  let live := liveness g.passes
  let pool := g.passes.zipIdx.foldl (fun pool (p, i) => pool.pass g.textures live i p) ({} : Pool)
  { slots := pool.slots, specs := pool.specs, intervals := live }

end Graph

end EffectChain
