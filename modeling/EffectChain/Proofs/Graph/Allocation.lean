import EffectChain.Proofs.Graph.Sharing

/-!
# EffectChain.Proofs.Graph.Allocation

What the allocation of a graph records is right (`allocate_sound`):

* the textures with a slot are those that some pass binds and that live within a
  frame;
* a slot is a number below the number of slots, and it stores what its textures need;
* the interval of a texture runs from the first to the last pass that binds it;
* the intervals of two textures in one slot are disjoint.

Two invariants of the pool carry this: `Pool.Sound`, which is about when slots are
free, and `Pool.Keyed`, which is about what they store.
-/

namespace EffectChain

namespace Graph

/-- The pass at a place binds a texture as an input or as an output. -/
def Binds (ps : List Pass) (i : Nat) (id : String) : Prop :=
  ∃ p, ps[i]? = some p ∧ (id ∈ p.inputs.values ∨ id ∈ p.outputs.values)

theorem touches_iff {ps : List Pass} {i : Nat} {id : String} :
    Touches ps i id ↔ Binds ps i id ∧ isPersistent id = false := by
  simp only [Touches, Binds, mem_transients]
  constructor
  · rintro ⟨p, hp, hid, hper⟩
    exact ⟨⟨p, hp, hid⟩, hper⟩
  · rintro ⟨⟨p, hp, hid⟩, hper⟩
    exact ⟨p, hp, hid, hper⟩

/-! ## what slots store -/

namespace Pool

/-- A slot stores what the textures in it need, and a free slot has the key it is
kept under. -/
structure Keyed (textures : Table TextureSpec) (pool : Pool) : Prop where
  stored : ∀ id s, pool.slots.get? id = some s →
    ∃ spec, pool.specs[s]? = some spec ∧ spec.key = (textures.getD id .surface).key
  free : ∀ key, ∀ f ∈ pool.free.getD key [],
    ∃ spec, pool.specs[f.slot]? = some spec ∧ spec.key = key

variable {textures : Table TextureSpec} {pool : Pool}

theorem Keyed.empty : Keyed textures {} where
  stored := by simp
  free := by simp [Table.getD]

/-- A new slot stores what its texture needs. -/
theorem Keyed.placeNew (h : Keyed textures pool) (id : String) :
    Keyed textures { pool with
      slots := pool.slots.insert id pool.specs.length
      specs := pool.specs ++ [textures.getD id .surface] } := by
  have hkeep : ∀ (s : Nat) (spec : TextureSpec), pool.specs[s]? = some spec →
      (pool.specs ++ [textures.getD id .surface])[s]? = some spec := by
    intro s spec hs
    rw [List.getElem?_append_left (List.getElem?_eq_some_iff.1 hs).1, hs]
  refine ⟨fun a s ha => ?_, fun key f hf => ?_⟩
  · rw [Table.get?_insert] at ha
    split at ha
    · next heq =>
        subst heq
        exact ⟨_, by simp [← Option.some.inj ha], rfl⟩
    · obtain ⟨spec, hs, hkey⟩ := h.stored a s ha
      exact ⟨spec, hkeep s spec hs, hkey⟩
  · obtain ⟨spec, hs, hkey⟩ := h.free key f hf
    exact ⟨spec, hkeep _ spec hs, hkey⟩

/-- A free slot of its key stores what a texture needs. -/
theorem Keyed.placeFree (h : Keyed textures pool) (id : String) {p : FreeSlot → Bool} {f : FreeSlot}
    (hf : (pool.free.getD (textures.getD id .surface).key []).find? p = some f) :
    Keyed textures { pool with
      slots := pool.slots.insert id f.slot
      free := pool.free.insert (textures.getD id .surface).key
        ((pool.free.getD (textures.getD id .surface).key []).eraseP p) } := by
  refine ⟨fun a s ha => ?_, fun key f' hf' => ?_⟩
  · rw [Table.get?_insert] at ha
    split at ha
    · next heq =>
        rw [heq, ← Option.some.inj ha]
        exact h.free _ f (List.mem_of_find?_eq_some hf)
    · exact h.stored a s ha
  · rw [Table.getD_insert] at hf'
    split at hf'
    · next heq => exact h.free key f' (heq ▸ List.mem_of_mem_eraseP hf')
    · exact h.free key f' hf'

theorem Keyed.place (h : Keyed textures pool) (i : Nat) (id : String) :
    Keyed textures (pool.place textures i id) := by
  unfold Pool.place
  split
  · exact h
  · simp only
    split
    · next f hf => exact h.placeFree id hf
    · exact h.placeNew id

theorem Keyed.release (h : Keyed textures pool) (live : Table Interval) (i : Nat) (id : String) :
    Keyed textures (pool.release live i id) := by
  unfold Pool.release
  split
  · next slot iv hslot hiv =>
      split
      · obtain ⟨spec, hspec, -⟩ := h.stored id slot hslot
        refine ⟨h.stored, fun key f hf => ?_⟩
        rw [Table.getD_insert] at hf
        split at hf
        · next heq =>
            rcases List.mem_append.1 hf with hf | hf
            · exact h.free key f (heq ▸ hf)
            · rw [List.mem_singleton.1 hf, heq]
              exact ⟨spec, hspec, by simp [List.getD, hspec]⟩
        · exact h.free key f hf
      · exact h
  · exact h

/-- One pass keeps what slots store. -/
theorem Keyed.pass (h : Keyed textures pool) (live : Table Interval) (i : Nat) (p : Pass) :
    Keyed textures (pool.pass textures live i p) := by
  have hplaced : ∀ (ids : List String) (pool : Pool), Keyed textures pool →
      Keyed textures (ids.foldl (Pool.place textures i) pool) := by
    intro ids
    induction ids with
    | nil => exact fun _ h => h
    | cons id ids ih => exact fun pool h => ih _ (h.place i id)
  have hreleased : ∀ (ids : List String) (pool : Pool), Keyed textures pool →
      Keyed textures (ids.foldl (Pool.release live i) pool) := by
    intro ids
    induction ids with
    | nil => exact fun _ h => h
    | cons id ids ih => exact fun pool h => ih _ (h.release live i id)
  exact hreleased _ _ (hplaced _ _ h)

end Pool

/-! ## the allocation of a graph -/

variable (g : Graph)

/-- A slot of the allocation stores what its textures need. -/
theorem stored_of_slot {id : String} {s : Nat} (h : g.allocate.slots.get? id = some s) :
    ∃ spec, g.allocate.specs[s]? = some spec ∧ spec.key = (g.textures.getD id .surface).key := by
  have hkeyed : Pool.Keyed g.textures (g.passes.zipIdx.foldl
      (fun pool e => pool.pass g.textures (liveness g.passes) e.2 e.1) {}) :=
    foldl_zipIdx (fun _ pool => Pool.Keyed g.textures pool) _ g.passes {} Pool.Keyed.empty
      fun i p _ _ hpool => hpool.pass (liveness g.passes) i p
  exact hkeyed.stored id s h

/-- The textures with a slot are those that some pass binds and that live within a frame. -/
theorem contains_slots_iff (id : String) :
    g.allocate.slots.contains id = true ↔ isPersistent id = false ∧ ∃ i, Binds g.passes i id := by
  constructor
  · intro h
    obtain ⟨s, hs⟩ := Table.contains_iff.1 h
    obtain ⟨-, j, -, htouch⟩ := (sound_allocate g).given id s hs
    obtain ⟨hbinds, hper⟩ := touches_iff.1 htouch
    exact ⟨hper, j, hbinds⟩
  · rintro ⟨hper, i, hbinds⟩
    have htouch : Touches g.passes i id := touches_iff.2 ⟨hbinds, hper⟩
    exact (sound_allocate g).placed i htouch.lt_length id htouch

/-- The interval of a texture runs from the first to the last pass that binds it. -/
theorem get?_intervals_iff (id : String) (iv : Interval) :
    g.allocate.intervals.get? id = some iv ↔
      isPersistent id = false ∧ Binds g.passes iv.first id ∧ Binds g.passes iv.last id ∧
        ∀ i, Binds g.passes i id → iv.first ≤ i ∧ i ≤ iv.last := by
  obtain ⟨hsome, hnone⟩ := spans_liveness g.passes id
  constructor
  · intro h
    obtain ⟨⟨-, hfirst⟩, ⟨-, hlast⟩, hbetween⟩ := hsome iv h
    obtain ⟨hbinds, hper⟩ := touches_iff.1 hfirst
    refine ⟨hper, hbinds, (touches_iff.1 hlast).1, fun i hi => ?_⟩
    have htouch : Touches g.passes i id := touches_iff.2 ⟨hi, hper⟩
    exact hbetween i htouch.lt_length htouch
  · rintro ⟨hper, hfirst, hlast, hbetween⟩
    have htouch : Touches g.passes iv.first id := touches_iff.2 ⟨hfirst, hper⟩
    cases hget : (liveness g.passes).get? id with
    | none => exact absurd htouch (hnone hget _ htouch.lt_length)
    | some iv' =>
        -- both intervals begin and end at passes that lie in the other one
        obtain ⟨⟨-, hfirst'⟩, ⟨-, hlast'⟩, hbetween'⟩ := hsome iv' hget
        have hto : Touches g.passes iv.last id := touches_iff.2 ⟨hlast, hper⟩
        have h1 := hbetween _ (touches_iff.1 hfirst').1
        have h2 := hbetween _ (touches_iff.1 hlast').1
        have h3 := hbetween' _ htouch.lt_length htouch
        have h4 := hbetween' _ hto.lt_length hto
        have heq : iv' = iv := by
          obtain ⟨a, b⟩ := iv
          obtain ⟨a', b'⟩ := iv'
          simp only [Interval.mk.injEq] at *
          omega
        rw [allocate, hget, heq]

/-- A texture with a slot has an interval. -/
theorem interval_of_slot {id : String} {s : Nat} (h : g.allocate.slots.get? id = some s) :
    ∃ iv, g.allocate.intervals.get? id = some iv ∧ Touches g.passes iv.first id ∧
      Touches g.passes iv.last id := by
  obtain ⟨-, j, -, htouch⟩ := (sound_allocate g).given id s h
  obtain ⟨hsome, hnone⟩ := spans_liveness g.passes id
  cases hget : (liveness g.passes).get? id with
  | none => exact absurd htouch (hnone hget j htouch.lt_length)
  | some iv => exact ⟨iv, hget, (hsome iv hget).first.2, (hsome iv hget).last.2⟩

/-- The intervals of two textures in one slot are disjoint. -/
theorem intervals_disjoint {v w : String} {s : Nat} (hne : v ≠ w)
    (hv : g.allocate.slots.get? v = some s) (hw : g.allocate.slots.get? w = some s) :
    ∃ iv iw, g.allocate.intervals.get? v = some iv ∧ g.allocate.intervals.get? w = some iw ∧
      (iv.last < iw.first ∨ iw.last < iv.first) := by
  obtain ⟨iv, hiv, hvfirst, hvlast⟩ := interval_of_slot g hv
  obtain ⟨iw, hiw, hwfirst, hwlast⟩ := interval_of_slot g hw
  refine ⟨iv, iw, hiv, hiw, ?_⟩
  rcases separate_of_same_slot g hne hv hw with h | h
  · exact .inl (h iv.last iw.first hvlast hwfirst)
  · exact .inr (h iw.last iv.first hwlast hvfirst)

/-- What the allocation of a graph records is right: who has a slot, what the slot
stores, over which passes a texture is live, and that textures in one slot are never
live together. -/
theorem allocate_sound (g : Graph) :
    (∀ id, g.allocate.slots.contains id = true ↔
      isPersistent id = false ∧ ∃ i, Binds g.passes i id) ∧
    (∀ id s, g.allocate.slots.get? id = some s → s < g.allocate.size ∧
      ∃ spec, g.allocate.specs[s]? = some spec ∧
        spec.key = (g.textures.getD id .surface).key) ∧
    (∀ id iv, g.allocate.intervals.get? id = some iv ↔
      isPersistent id = false ∧ Binds g.passes iv.first id ∧ Binds g.passes iv.last id ∧
        ∀ i, Binds g.passes i id → iv.first ≤ i ∧ i ≤ iv.last) ∧
    (∀ v w s, v ≠ w → g.allocate.slots.get? v = some s → g.allocate.slots.get? w = some s →
      ∃ iv iw, g.allocate.intervals.get? v = some iv ∧ g.allocate.intervals.get? w = some iw ∧
        (iv.last < iw.first ∨ iw.last < iv.first)) := by
  refine ⟨contains_slots_iff g, fun id s hs => ?_, get?_intervals_iff g, ?_⟩
  · exact ⟨((sound_allocate g).given id s hs).1, stored_of_slot g hs⟩
  · intro v w s hne hv hw
    exact intervals_disjoint g hne hv hw

end Graph

end EffectChain
