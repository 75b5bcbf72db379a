import Mathlib
import EffectChain.Proofs.Graph.Allocation

/-!
# EffectChain.Proofs.Graph.Optimality

The allocation of a graph uses as few slots as any allotment can
(`allocate_optimal`):

* for each key it has as many slots as textures with that key are ever live in one
  pass (`size_le_pressure`);
* no allotment has less (`Allots.pressure_le`), for the textures that are live in one
  pass all need slots of their own.

The first half is the converse of soundness.  A slot is minted when no slot of its key
is free; `Pool.Held` says that all slots of the key are then held by textures that
are live in that very pass.
-/

namespace EffectChain

namespace Graph

/-! ## textures that are live in a pass -/

/-- A texture is live in pass `i` if some pass up to it touches the texture and some
pass from it on. -/
def LiveAt (ps : List Pass) (i : Nat) (id : String) : Prop :=
  (∃ p ∈ ps.take (i + 1), id ∈ p.transients) ∧ ∃ p ∈ ps.drop i, id ∈ p.transients

instance (ps : List Pass) (i : Nat) (id : String) : Decidable (LiveAt ps i id) :=
  inferInstanceAs (Decidable (_ ∧ _))

/-- The first passes use a texture when one of them touches it. -/
theorem touches_iff_mem_take {ps : List Pass} {n : Nat} {id : String} :
    (∃ p ∈ ps.take n, id ∈ p.transients) ↔ ∃ j < n, Touches ps j id := by
  simp only [List.mem_iff_getElem?, List.getElem?_take, Touches]
  constructor
  · rintro ⟨p, ⟨j, hj⟩, hid⟩
    split at hj
    · next hlt => exact ⟨j, hlt, p, hj, hid⟩
    · cases hj
  · rintro ⟨j, hlt, p, hj, hid⟩
    exact ⟨p, ⟨j, by rw [if_pos hlt, hj]⟩, hid⟩

/-- The later passes use a texture when one of them touches it. -/
theorem touches_iff_mem_drop {ps : List Pass} {n : Nat} {id : String} :
    (∃ p ∈ ps.drop n, id ∈ p.transients) ↔ ∃ j, n ≤ j ∧ Touches ps j id := by
  simp only [List.mem_iff_getElem?, List.getElem?_drop, Touches]
  constructor
  · rintro ⟨p, ⟨j, hj⟩, hid⟩
    exact ⟨n + j, Nat.le_add_right n j, p, hj, hid⟩
  · rintro ⟨j, hle, p, hj, hid⟩
    exact ⟨p, ⟨j - n, by rw [Nat.add_sub_cancel' hle, hj]⟩, hid⟩

theorem liveAt_iff {ps : List Pass} {i : Nat} {id : String} :
    LiveAt ps i id ↔ (∃ j ≤ i, Touches ps j id) ∧ ∃ k, i ≤ k ∧ Touches ps k id := by
  simp only [LiveAt, touches_iff_mem_take, touches_iff_mem_drop, Nat.lt_succ_iff]

theorem Touches.liveAt {ps : List Pass} {i : Nat} {id : String} (h : Touches ps i id) :
    LiveAt ps i id :=
  liveAt_iff.2 ⟨⟨i, Nat.le_refl i, h⟩, i, Nat.le_refl i, h⟩

/-- A texture that was touched and is live no longer was touched last in the pass before. -/
theorem LiveAt.last {ps : List Pass} {i : Nat} {id : String} (h : LiveAt ps i id)
    (hnext : ¬ LiveAt ps (i + 1) id) : Touches ps i id ∧ ∀ j, Touches ps j id → j ≤ i := by
  obtain ⟨⟨j, hj, htouch⟩, k, hk, hlater⟩ := liveAt_iff.1 h
  have hlast : ∀ j, Touches ps j id → j ≤ i := by
    intro m hm
    by_contra hlt
    exact hnext (liveAt_iff.2 ⟨⟨j, by omega, htouch⟩, m, by omega, hm⟩)
  have hki : k = i := Nat.le_antisymm (hlast k hlater) hk
  exact ⟨hki ▸ hlater, hlast⟩

/-! ## how many slots a graph needs -/

variable (g : Graph)

/-- The textures of the graph that live within a frame. -/
def transients : Finset String := (g.passes.flatMap Pass.transients).toFinset

/-- The key a texture is allocated under. -/
def keyOf (id : String) : String := (g.textures.getD id .surface).key

/-- The keys of the textures that live within a frame. -/
def allocationKeys : Finset String := g.transients.image g.keyOf

/-- The textures with a key that are live in pass `i`. -/
def liveWith (key : String) (i : Nat) : Finset String :=
  g.transients.filter fun id => g.keyOf id = key ∧ LiveAt g.passes i id

/-- The greatest number of textures with a key that are live in one pass. -/
def pressure (key : String) : Nat :=
  (Finset.range g.passes.length).sup fun i => (g.liveWith key i).card

/-- An assignment of storage to textures is an allotment if textures that share storage
have the same key and are never live in one pass. -/
structure Allots {σ : Type} (assign : String → σ) : Prop where
  key : ∀ v ∈ g.transients, ∀ w ∈ g.transients, assign v = assign w → g.keyOf v = g.keyOf w
  apart : ∀ v ∈ g.transients, ∀ w ∈ g.transients, v ≠ w → assign v = assign w →
    ∀ i, ¬ (LiveAt g.passes i v ∧ LiveAt g.passes i w)

variable {g}

/-- A transient of a graph is touched by one of its passes. -/
theorem mem_transients_iff {id : String} : id ∈ g.transients ↔ ∃ i, Touches g.passes i id := by
  rw [transients, List.mem_toFinset, List.mem_flatMap]
  constructor
  · rintro ⟨p, hp, hid⟩
    obtain ⟨i, hi⟩ := List.mem_iff_getElem?.1 hp
    exact ⟨i, p, hi, hid⟩
  · rintro ⟨i, p, hi, hid⟩
    exact ⟨p, List.mem_of_getElem? hi, hid⟩

/-- What is live with a key at a pass. -/
theorem mem_liveWith {key : String} {i : Nat} {id : String} :
    id ∈ g.liveWith key i ↔ g.keyOf id = key ∧ LiveAt g.passes i id := by
  simp only [liveWith, Finset.mem_filter, and_iff_right_iff_imp]
  rintro ⟨-, hlive⟩
  obtain ⟨⟨j, -, htouch⟩, -⟩ := liveAt_iff.1 hlive
  exact mem_transients_iff.2 ⟨j, htouch⟩

theorem card_liveWith_le {i : Nat} (hi : i < g.passes.length) (key : String) :
    (g.liveWith key i).card ≤ g.pressure key :=
  Finset.le_sup (f := fun i => (g.liveWith key i).card) (Finset.mem_range.2 hi)

/-! ## no allotment does with less -/

/-- The textures that are live in one pass under one key have storage of their own. -/
theorem Allots.pressure_le_key {σ : Type} [DecidableEq σ] {assign : String → σ}
    (h : g.Allots assign) (key : String) :
    g.pressure key ≤ ((g.transients.filter (g.keyOf · = key)).image assign).card := by
  refine Finset.sup_le fun i _ => ?_
  have hinj : Set.InjOn assign (g.liveWith key i) := by
    intro v hv w hw heq
    rw [Finset.mem_coe, liveWith, Finset.mem_filter] at hv hw
    by_contra hne
    exact h.apart v hv.1 w hw.1 hne heq i ⟨hv.2.2, hw.2.2⟩
  rw [← Finset.card_image_of_injOn hinj]
  refine Finset.card_le_card (Finset.image_subset_image fun id hid => ?_)
  rw [liveWith, Finset.mem_filter] at hid
  exact Finset.mem_filter.2 ⟨hid.1, hid.2.1⟩

/-- Every allotment uses, for each key, as much storage as textures are live in one pass. -/
theorem Allots.pressure_le {σ : Type} [DecidableEq σ] {assign : String → σ} (h : g.Allots assign) :
    ∑ key ∈ g.allocationKeys, g.pressure key ≤ (g.transients.image assign).card := by
  have hdisjoint : (g.allocationKeys : Set String).PairwiseDisjoint fun key =>
      (g.transients.filter (g.keyOf · = key)).image assign := by
    intro k _ k' _ hne
    rw [Function.onFun, Finset.disjoint_left]
    intro s hs hs'
    obtain ⟨v, hv, rfl⟩ := Finset.mem_image.1 hs
    obtain ⟨w, hw, heq⟩ := Finset.mem_image.1 hs'
    rw [Finset.mem_filter] at hv hw
    exact hne (hv.2.symm.trans ((h.key v hv.1 w hw.1 heq.symm).trans hw.2))
  calc ∑ key ∈ g.allocationKeys, g.pressure key
      ≤ ∑ key ∈ g.allocationKeys, ((g.transients.filter (g.keyOf · = key)).image assign).card :=
        Finset.sum_le_sum fun key _ => h.pressure_le_key key
    _ = (g.allocationKeys.biUnion fun key =>
          (g.transients.filter (g.keyOf · = key)).image assign).card :=
        (Finset.card_biUnion hdisjoint).symm
    _ ≤ (g.transients.image assign).card := by
        refine Finset.card_le_card (Finset.biUnion_subset.2 fun key _ => ?_)
        exact Finset.image_subset_image (Finset.filter_subset _ _)

/-! ## no slot is minted in vain -/

/-- The slots that store textures with a key. -/
def Pool.slotsOf (pool : Pool) (key : String) : Finset Nat :=
  (Finset.range pool.specs.length).filter fun s => (pool.specs.getD s .surface).key = key

/-- Every slot of the pool is the slot of a texture, and of one that stays unless the slot
is free. -/
structure Pool.Held (Stays : String → Prop) (pool : Pool) : Prop where
  used : ∀ s < pool.specs.length, ∃ id, pool.slots.get? id = some s
  busy : ∀ s < pool.specs.length,
    (∃ f ∈ pool.free.getD (pool.specs.getD s .surface).key [], f.slot = s) ∨
      ∃ id, Stays id ∧ pool.slots.get? id = some s

/-- The slots of a key are no more than its textures that are live in one pass. -/
def Pool.Few (g : Graph) (pool : Pool) : Prop := ∀ key, (pool.slotsOf key).card ≤ g.pressure key

namespace Pool

variable {Stays : String → Prop} {pool : Pool} {id : String} {i : Nat}

theorem Held.empty : Held Stays {} := ⟨by simp, by simp⟩

theorem Held.mono (h : Held Stays pool) {Stays' : String → Prop}
    (hsub : ∀ id, Stays id → Stays' id) : Held Stays' pool where
  used := h.used
  busy s hs := (h.busy s hs).imp_right fun ⟨id, hid, hslot⟩ => ⟨id, hsub id hid, hslot⟩

/-- A texture that has a slot keeps it when another one gets a slot. -/
theorem get?_insert_of_new (hid : pool.slots.contains id = false) (slot : Nat) {a : String}
    {s : Nat} (ha : pool.slots.get? a = some s) : (pool.slots.insert id slot).get? a = some s := by
  rw [Table.get?_insert, if_neg, ha]
  rintro rfl
  simp [Table.contains, ha] at hid

/-- A free slot that is given to a texture that stays is held by it. -/
theorem Held.placeFree (h : Held Stays pool) (hid : pool.slots.contains id = false)
    (hstays : Stays id) {key : String} {p : FreeSlot → Bool} {f : FreeSlot}
    (hf : (pool.free.getD key []).find? p = some f) :
    Held Stays { pool with
      slots := pool.slots.insert id f.slot
      free := pool.free.insert key ((pool.free.getD key []).eraseP p) } := by
  refine ⟨fun s hs => ?_, fun s hs => ?_⟩
  · obtain ⟨a, ha⟩ := h.used s hs
    exact ⟨a, get?_insert_of_new hid _ ha⟩
  · by_cases hslot : s = f.slot
    · exact .inr ⟨id, hstays, by simp [hslot]⟩
    · refine (h.busy s hs).imp (fun ⟨f', hf', heq⟩ => ⟨f', ?_, heq⟩)
        fun ⟨a, ha, hget⟩ => ⟨a, ha, get?_insert_of_new hid _ hget⟩
      rw [Table.getD_insert]
      split
      · next hkey =>
          obtain ⟨as, bs, hfree, herase⟩ := find?_eraseP_split hf
          have hne : f' ≠ f := fun hff => hslot (hff ▸ heq).symm
          rw [hkey, hfree, List.mem_append, List.mem_cons] at hf'
          rw [herase, List.mem_append]
          exact hf'.imp_right fun hmem => hmem.resolve_left hne
      · exact hf'

/-- A slot that is minted for a texture that stays is held by it. -/
theorem Held.placeNew (h : Held Stays pool) (hid : pool.slots.contains id = false)
    (hstays : Stays id) (spec : TextureSpec) :
    Held Stays { pool with
      slots := pool.slots.insert id pool.specs.length
      specs := pool.specs ++ [spec] } := by
  have hcases : ∀ s < (pool.specs ++ [spec]).length, s < pool.specs.length ∨
      s = pool.specs.length := by
    intro s hs
    rw [List.length_append, List.length_singleton] at hs
    omega
  refine ⟨fun s hs => ?_, fun s hs => ?_⟩ <;> rcases hcases s hs with hlt | rfl
  · obtain ⟨a, ha⟩ := h.used s hlt
    exact ⟨a, get?_insert_of_new hid _ ha⟩
  · exact ⟨id, by simp⟩
  · have hspec : (pool.specs ++ [spec]).getD s .surface = pool.specs.getD s .surface := by
      simp only [List.getD_eq_getElem?_getD, List.getElem?_append_left hlt]
    rw [hspec]
    exact (h.busy s hlt).imp_right fun ⟨a, ha, hget⟩ => ⟨a, ha, get?_insert_of_new hid _ hget⟩
  · exact .inr ⟨id, hstays, by simp⟩

/-- When no slot of a key is free, all its slots are held by textures that are live in
the pass. -/
theorem Held.card_slotsOf_le (h : Held (LiveAt g.passes i) pool) (hkeyed : Keyed g.textures pool)
    {key : String} (hnone : pool.free.getD key [] = []) :
    (pool.slotsOf key).card ≤ (g.liveWith key i).card := by
  have hsub : pool.slotsOf key ⊆ (g.liveWith key i).image (pool.slots.getD · 0) := by
    intro s hs
    obtain ⟨hlt, hkey⟩ := Finset.mem_filter.1 hs
    rcases h.busy s (Finset.mem_range.1 hlt) with ⟨f, hf, -⟩ | ⟨a, hlive, hget⟩
    · rw [hkey, hnone] at hf
      cases hf
    · obtain ⟨spec, hspec, hstored⟩ := hkeyed.stored a s hget
      have hkeyOf : g.keyOf a = key := by
        rw [← hkey, keyOf, ← hstored, List.getD, hspec, Option.getD_some]
      exact Finset.mem_image.2 ⟨a, mem_liveWith.2 ⟨hkeyOf, hlive⟩, by simp [Table.getD, hget]⟩
  exact (Finset.card_le_card hsub).trans Finset.card_image_le

/-- A new slot is one of its own key only. -/
theorem slotsOf_concat {spec : TextureSpec} {slots : Table Nat} {key : String}
    (hne : spec.key ≠ key) :
    slotsOf { pool with slots := slots, specs := pool.specs ++ [spec] } key = pool.slotsOf key := by
  ext s
  simp only [slotsOf, Finset.mem_filter, Finset.mem_range, List.length_append,
    List.length_singleton]
  constructor
  · rintro ⟨hs, hkey⟩
    have hlt : s < pool.specs.length := by
      by_contra hge
      have heq : s = pool.specs.length := by omega
      exact hne (by simpa [heq] using hkey)
    exact ⟨hlt,
      by simpa only [List.getD_eq_getElem?_getD, List.getElem?_append_left hlt] using hkey⟩
  · rintro ⟨hs, hkey⟩
    refine ⟨Nat.lt_succ_of_lt hs, ?_⟩
    simpa only [List.getD_eq_getElem?_getD, List.getElem?_append_left hs] using hkey

/-- Giving a texture of the pass a slot mints one only if the pass needs it. -/
theorem Held.place (h : Held (LiveAt g.passes i) pool) (hfew : Few g pool)
    (hsound : Sound g.passes i [] pool) (hkeyed : Keyed g.textures pool)
    (hi : Touches g.passes i id) :
    Held (LiveAt g.passes i) (pool.place g.textures i id) ∧ Few g (pool.place g.textures i id) := by
  have hkeyed' := hkeyed.place i id
  unfold Pool.place at hkeyed' ⊢
  split
  · exact ⟨h, hfew⟩
  · next hid =>
      have hid : pool.slots.contains id = false := by simpa using hid
      rw [if_neg (by simp [hid])] at hkeyed'
      simp only at hkeyed' ⊢
      split
      · next f hf => exact ⟨h.placeFree hid hi.liveAt hf, hfew⟩
      · next hnone =>
          rw [hnone] at hkeyed'
          have hheld := h.placeNew hid hi.liveAt (g.textures.getD id .surface)
          -- every free slot was free before the pass, so that one would have been found
          have hempty : pool.free.getD (g.keyOf id) [] = [] := by
            refine List.eq_nil_iff_forall_not_mem.2 fun f hf => ?_
            rcases hsound.fresh _ f hf with hlt | ⟨-, a, ha, -⟩
            · have := List.find?_eq_none.1 hnone f hf
              simp [hlt] at this
            · cases ha
          refine ⟨hheld, fun key => ?_⟩
          by_cases hkey : g.keyOf id = key
          · subst hkey
            exact (hheld.card_slotsOf_le hkeyed' hempty).trans (card_liveWith_le hi.lt_length _)
          · rw [slotsOf_concat hkey]
            exact hfew key

/-- Giving the textures of a pass slots mints no more than the pass needs. -/
theorem Held.placeAll :
    ∀ (ids : List String) (pool : Pool), Held (LiveAt g.passes i) pool → Few g pool →
    Sound g.passes i [] pool → Keyed g.textures pool → (∀ id ∈ ids, Touches g.passes i id) →
      Held (LiveAt g.passes i) (ids.foldl (Pool.place g.textures i) pool) ∧
        Few g (ids.foldl (Pool.place g.textures i) pool)
  | [], _, h, hfew, _, _, _ => ⟨h, hfew⟩
  | id :: ids, pool, h, hfew, hsound, hkeyed, hids => by
      have hid := hids id List.mem_cons_self
      obtain ⟨hstep, hfew'⟩ := h.place hfew hsound hkeyed hid
      exact placeAll ids _ hstep hfew' (hsound.place g.textures hid) (hkeyed.place i id)
        fun a ha => hids a (List.mem_cons_of_mem id ha)

/-- Releasing a texture keeps the specs. -/
theorem specs_release (live : Table Interval) (i : Nat) (pool : Pool) (id : String) :
    (pool.release live i id).specs = pool.specs := by
  unfold Pool.release
  split
  · split <;> rfl
  · rfl

/-- Releasing a texture keeps the slots that were free. -/
theorem free_release (live : Table Interval) (i : Nat) (id : String) {key : String} {f : FreeSlot}
    (hf : f ∈ pool.free.getD key []) : f ∈ (pool.release live i id).free.getD key [] := by
  unfold Pool.release
  split
  · split
    · rw [Table.getD_insert]
      split
      · next heq => exact List.mem_append_left _ (heq ▸ hf)
      · exact hf
    · exact hf
  · exact hf

/-- A texture that is touched last in the pass leaves its slot free. -/
theorem Held.release {live : Table Interval} (h : Held (fun a => Stays a ∨ a = id) pool)
    (hlast : ¬ Stays id → ∃ iv, live.get? id = some iv ∧ iv.last = i) :
    Held Stays (pool.release live i id) := by
  refine ⟨?_, fun s hs => ?_⟩
  · rw [slots_release, specs_release]
    exact h.used
  · rw [specs_release] at hs
    rw [slots_release, specs_release]
    rcases h.busy s hs with ⟨f, hf, hslot⟩ | ⟨a, hstays | rfl, hget⟩
    · exact .inl ⟨f, free_release live i id hf, hslot⟩
    · exact .inr ⟨a, hstays, hget⟩
    · by_cases hstays : Stays a
      · exact .inr ⟨a, hstays, hget⟩
      · obtain ⟨iv, hiv, hi⟩ := hlast hstays
        refine .inl ⟨⟨s, i⟩, ?_, rfl⟩
        simp [Pool.release, hget, hiv, hi, Table.getD_insert]

/-- The textures of a pass that are live no longer leave their slots free. -/
theorem Held.releaseAll : ∀ (ids : List String) (pool : Pool),
    Held (fun a => LiveAt g.passes (i + 1) a ∨ a ∈ ids) pool → (∀ id ∈ ids, Touches g.passes i id) →
      Held (LiveAt g.passes (i + 1)) (ids.foldl (Pool.release (liveness g.passes) i) pool) ∧
        (ids.foldl (Pool.release (liveness g.passes) i) pool).specs = pool.specs
  | [], _, h, _ => ⟨h.mono (by simp), rfl⟩
  | id :: ids, pool, h, hids => by
      have hlast : ¬ (LiveAt g.passes (i + 1) id ∨ id ∈ ids) →
          ∃ iv, (liveness g.passes).get? id = some iv ∧ iv.last = i := by
        intro hnot
        have hid := hids id List.mem_cons_self
        obtain ⟨-, hle⟩ := hid.liveAt.last fun hnext => hnot (.inl hnext)
        obtain ⟨hsome, hnone⟩ := spans_liveness g.passes id
        cases hget : (liveness g.passes).get? id with
        | none => exact absurd hid (hnone hget i hid.lt_length)
        | some iv =>
            exact ⟨iv, rfl,
              Nat.le_antisymm (hle _ (hsome iv hget).last.2) (touches_le_last hget hid)⟩
      have hrest : Held (fun a => LiveAt g.passes (i + 1) a ∨ a ∈ ids)
          (pool.release (liveness g.passes) i id) := by
        refine Held.release (h.mono fun a ha => ?_) hlast
        rwa [List.mem_cons, or_comm (a := a = id), ← or_assoc] at ha
      obtain ⟨hheld, hspecs⟩ := releaseAll ids _ hrest fun a ha =>
        hids a (List.mem_cons_of_mem id ha)
      exact ⟨hheld, hspecs.trans (specs_release _ _ _ _)⟩

/-- One pass mints no slot in vain. -/
theorem Held.pass (h : Held (LiveAt g.passes i) pool) (hfew : Few g pool)
    (hsound : Sound g.passes i [] pool) (hkeyed : Keyed g.textures pool) {p : Pass}
    (hp : g.passes[i]? = some p) :
    Held (LiveAt g.passes (i + 1)) (pool.pass g.textures (liveness g.passes) i p) ∧
      Few g (pool.pass g.textures (liveness g.passes) i p) := by
  have htouch : ∀ id ∈ p.transients, Touches g.passes i id := fun id hid => ⟨p, hp, hid⟩
  obtain ⟨hplaced, hfew'⟩ := Held.placeAll p.transients pool h hfew hsound hkeyed htouch
  -- a texture that is live in this pass and not in the next one is touched by this one
  have hstays : ∀ a, LiveAt g.passes i a → LiveAt g.passes (i + 1) a ∨ a ∈ p.transients := by
    intro a ha
    by_cases hnext : LiveAt g.passes (i + 1) a
    · exact .inl hnext
    · obtain ⟨⟨q, hq, hid⟩, -⟩ := ha.last hnext
      rw [hp] at hq
      exact .inr (Option.some.inj hq ▸ hid)
  obtain ⟨hheld, hspecs⟩ := Held.releaseAll p.transients _ (hplaced.mono hstays) htouch
  refine ⟨hheld, fun key => ?_⟩
  rw [Pool.pass, slotsOf, hspecs]
  exact hfew' key

end Pool

/-! ## the allocation of a graph -/

variable (g)

/-- The slot the allocation gives a texture. -/
def slotOf (id : String) : Nat := g.allocate.slots.getD id 0

/-- Every slot of the allocation is the slot of a texture, and the slots of each key are
no more than its textures that are live in one pass. -/
theorem held_allocate :
    (∀ s < g.allocate.size, ∃ id, g.allocate.slots.get? id = some s) ∧
    ∀ key, ((Finset.range g.allocate.size).filter fun s =>
      (g.allocate.specs.getD s .surface).key = key).card ≤ g.pressure key := by
  have hall : Pool.Sound g.passes g.passes.length [] _ ∧ Pool.Keyed g.textures _ ∧
      Pool.Held (LiveAt g.passes g.passes.length) _ ∧ Pool.Few g _ :=
    foldl_zipIdx (fun i pool => Pool.Sound g.passes i [] pool ∧ Pool.Keyed g.textures pool ∧
        Pool.Held (LiveAt g.passes i) pool ∧ Pool.Few g pool)
      (fun pool e => pool.pass g.textures (liveness g.passes) e.2 e.1) g.passes {}
      ⟨Pool.Sound.empty, Pool.Keyed.empty, Pool.Held.empty, by simp [Pool.Few, Pool.slotsOf]⟩
      fun i p pool hp ⟨hsound, hkeyed, hheld, hfew⟩ =>
        ⟨hsound.pass g.textures hp, hkeyed.pass _ i p, hheld.pass hfew hsound hkeyed hp⟩
  exact ⟨hall.2.2.1.used, hall.2.2.2⟩

variable {g}

/-- The textures that live within a frame are those with a slot. -/
theorem slotOf_spec {id : String} (h : id ∈ g.transients) :
    g.allocate.slots.get? id = some (g.slotOf id) := by
  obtain ⟨i, hi⟩ := mem_transients_iff.1 h
  obtain ⟨hbinds, hper⟩ := touches_iff.1 hi
  obtain ⟨s, hs⟩ := Table.contains_iff.1 ((contains_slots_iff g id).2 ⟨hper, i, hbinds⟩)
  simp [slotOf, Table.getD, hs]

theorem mem_transients_of_slot {id : String} {s : Nat} (h : g.allocate.slots.get? id = some s) :
    id ∈ g.transients := by
  obtain ⟨-, j, -, htouch⟩ := (sound_allocate g).given id s h
  exact mem_transients_iff.2 ⟨j, htouch⟩

variable (g)

/-- The allocation is an allotment. -/
theorem allots_allocate : g.Allots g.slotOf where
  key v hv w hw heq := by
    obtain ⟨spec, hspec, hkey⟩ := stored_of_slot g (slotOf_spec hv)
    obtain ⟨spec', hspec', hkey'⟩ := stored_of_slot g (slotOf_spec hw)
    rw [heq, hspec'] at hspec
    rw [keyOf, keyOf, ← hkey, ← hkey', Option.some.inj hspec]
  apart v hv w hw hne heq i hlive := by
    obtain ⟨hv', hw'⟩ := hlive
    obtain ⟨⟨a, ha, hfirst⟩, b, hb, hlast⟩ := liveAt_iff.1 hv'
    obtain ⟨⟨c, hc, hfirst'⟩, d, hd, hlast'⟩ := liveAt_iff.1 hw'
    rcases separate_of_same_slot g hne (slotOf_spec hv) (heq ▸ slotOf_spec hw) with h | h
    · have := h b c hlast hfirst'
      omega
    · have := h d a hlast' hfirst
      omega

/-- The allocation uses all its slots. -/
theorem image_slotOf : g.transients.image g.slotOf = Finset.range g.allocate.size := by
  ext s
  rw [Finset.mem_image, Finset.mem_range]
  constructor
  · rintro ⟨id, hid, rfl⟩
    exact ((sound_allocate g).given id _ (slotOf_spec hid)).1
  · intro hs
    obtain ⟨id, hid⟩ := (held_allocate g).1 s hs
    have hmem := mem_transients_of_slot hid
    refine ⟨id, hmem, ?_⟩
    rw [slotOf_spec hmem] at hid
    exact Option.some.inj hid

/-- The allocation has no more slots than textures of each key are live in one pass. -/
theorem size_le_pressure : g.allocate.size ≤ ∑ key ∈ g.allocationKeys, g.pressure key := by
  obtain ⟨hused, hfew⟩ := held_allocate g
  have hkeys : ∀ s ∈ Finset.range g.allocate.size,
      (g.allocate.specs.getD s .surface).key ∈ g.allocationKeys := by
    intro s hs
    obtain ⟨id, hid⟩ := hused s (Finset.mem_range.1 hs)
    obtain ⟨spec, hspec, hkey⟩ := stored_of_slot g hid
    rw [List.getD, hspec, Option.getD_some, hkey]
    exact Finset.mem_image_of_mem g.keyOf (mem_transients_of_slot hid)
  calc g.allocate.size = (Finset.range g.allocate.size).card := (Finset.card_range _).symm
    _ = ∑ key ∈ g.allocationKeys, ((Finset.range g.allocate.size).filter fun s =>
          (g.allocate.specs.getD s .surface).key = key).card :=
            Finset.card_eq_sum_card_fiberwise hkeys
    _ ≤ ∑ key ∈ g.allocationKeys, g.pressure key := Finset.sum_le_sum fun key _ => hfew key

/-- The allocation of a graph has as many slots as, summed over the keys, textures with the
key are ever live in one pass.  It is an allotment that uses all its slots, and no
allotment, to whatever storage, does with less. -/
theorem allocate_optimal :
    g.allocate.size = ∑ key ∈ g.allocationKeys, g.pressure key ∧
    (g.Allots g.slotOf ∧ (g.transients.image g.slotOf).card = g.allocate.size) ∧
    ∀ {σ : Type} [DecidableEq σ] (assign : String → σ), g.Allots assign →
      g.allocate.size ≤ (g.transients.image assign).card := by
  have hused : (g.transients.image g.slotOf).card = g.allocate.size := by
    rw [image_slotOf, Finset.card_range]
  have hsize : g.allocate.size = ∑ key ∈ g.allocationKeys, g.pressure key :=
    Nat.le_antisymm (size_le_pressure g) (hused ▸ (allots_allocate g).pressure_le)
  refine ⟨hsize, ⟨allots_allocate g, hused⟩, fun assign hassign => ?_⟩
  rw [hsize]
  exact hassign.pressure_le

end Graph

end EffectChain
