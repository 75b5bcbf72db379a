import EffectChain.Graph.Allocate
import EffectChain.Proofs.Data.Table

/-!
# EffectChain.Proofs.Graph.Sharing

Textures that share a slot do not meet: all passes that touch the one come before
all passes that touch the other (`separate_of_same_slot`).

The proof carries `Pool.Sound` through the passes.  What makes it go through is
that a slot is free at most once, and that it is free only since the last touch of
every texture it was given to.
-/

namespace EffectChain

namespace Graph

/-- The pass at a place touches a texture that lives within a frame. -/
def Touches (ps : List Pass) (i : Nat) (id : String) : Prop :=
  ∃ p, ps[i]? = some p ∧ id ∈ p.transients

/-- All passes that touch the first texture come before all that touch the second. -/
def Precedes (ps : List Pass) (v w : String) : Prop :=
  ∀ i j, Touches ps i v → Touches ps j w → i < j

/-! ## folds over numbered passes -/

/-- What one numbered element keeps, all elements from a number on keep. -/
theorem foldl_zipIdx_from {α σ : Type} (P : Nat → σ → Prop) (f : σ → α × Nat → σ) :
    ∀ (as : List α) (k : Nat) (s : σ), P k s →
      (∀ i a s, as[i]? = some a → P (k + i) s → P (k + i + 1) (f s (a, k + i))) →
      P (k + as.length) ((as.zipIdx k).foldl f s)
  | [], _, _, h, _ => h
  | a :: as, k, s, h, step => by
      have hhead : P (k + 1) (f s (a, k)) := step 0 a s rfl h
      have htail : ∀ i b s, as[i]? = some b → P (k + 1 + i) s →
          P (k + 1 + i + 1) (f s (b, k + 1 + i)) := by
        intro i b s hb hs
        have heq : k + 1 + i = k + (i + 1) := by omega
        rw [heq] at hs ⊢
        exact step (i + 1) b s hb hs
      have hall := foldl_zipIdx_from P f as (k + 1) _ hhead htail
      rw [List.zipIdx_cons, List.foldl_cons, List.length_cons]
      have hlen : k + (as.length + 1) = k + 1 + as.length := by omega
      rw [hlen]
      exact hall

/-- What one numbered element keeps, all elements keep. -/
theorem foldl_zipIdx {α σ : Type} (P : Nat → σ → Prop) (f : σ → α × Nat → σ) (as : List α) (s : σ)
    (h : P 0 s) (step : ∀ i a s, as[i]? = some a → P i s → P (i + 1) (f s (a, i))) :
    P as.length (as.zipIdx.foldl f s) := by
  have hall := foldl_zipIdx_from P f as 0 s h (by simpa using step)
  simpa using hall

/-- The element that is found is the one that is erased. -/
theorem find?_eraseP_split {α : Type} {q : α → Bool} {l : List α} {a : α} (h : l.find? q = some a) :
    ∃ as bs, l = as ++ a :: bs ∧ l.eraseP q = as ++ bs := by
  obtain ⟨ha, as, bs, hl, has⟩ := List.find?_eq_some_iff_append.1 h
  refine ⟨as, bs, hl, ?_⟩
  rw [hl, List.eraseP_append_right _ fun b hb => by simpa using has b hb]
  simp [ha]

/-! ## names in order -/

theorem mem_sortedNames {names : List String} {id : String} :
    id ∈ sortedNames names ↔ id ∈ names := by
  rw [sortedNames, Table.mem_keys_iff, Table.contains_ofList]
  simp

theorem mem_transients {p : Pass} {id : String} :
    id ∈ p.transients ↔ (id ∈ p.inputs.values ∨ id ∈ p.outputs.values) ∧
    isPersistent id = false := by
  simp [Pass.transients, Pass.textures, mem_sortedNames]

theorem nodup_transients (p : Pass) : p.transients.Nodup :=
  (Table.nodup_keys _).filter _

/-! ## intervals -/

/-- Touching textures in pass `i` leaves them live until `i`, from `i` on if they were
not live before, and others as they were. -/
theorem get?_foldl_touch (i : Nat) (id : String) (ids : List String) (live : Table Interval) :
    (ids.foldl (touch i) live).get? id =
      if id ∈ ids then some ⟨((live.get? id).map (·.first)).getD i, i⟩ else live.get? id := by
  induction ids generalizing live with
  | nil => simp
  | cons a ids ih =>
      rw [List.foldl_cons, ih]
      by_cases ha : id = a
      · simp [ha, touch]
      · simp [ha, touch]

/-- The interval runs from the first to the last of the passes before `n` that touch
the texture. -/
structure Interval.Spans (ps : List Pass) (n : Nat) (id : String) (iv : Interval) : Prop where
  first : iv.first < n ∧ Touches ps iv.first id
  last : iv.last < n ∧ Touches ps iv.last id
  between : ∀ j < n, Touches ps j id → iv.first ≤ j ∧ j ≤ iv.last

/-- The interval of a texture after pass `i` touched it. -/
theorem Interval.Spans.touch {ps : List Pass} {i : Nat} {id : String} (hi : Touches ps i id)
    {live : Option Interval} (hsome : ∀ iv, live = some iv → Spans ps i id iv)
    (hnone : live = none → ∀ j < i, ¬ Touches ps j id) :
    Spans ps (i + 1) id ⟨(live.map (·.first)).getD i, i⟩ := by
  cases live with
  | none =>
      refine ⟨⟨Nat.lt_succ_self i, hi⟩, ⟨Nat.lt_succ_self i, hi⟩, fun j hj ht => ?_⟩
      have hij : ¬ j < i := fun hlt => hnone rfl j hlt ht
      simp
      omega
  | some iv =>
      obtain ⟨⟨hfirst, htouch⟩, -, hbetween⟩ := hsome iv rfl
      refine ⟨⟨Nat.lt_succ_of_lt hfirst, htouch⟩, ⟨Nat.lt_succ_self i, hi⟩, fun j hj ht => ?_⟩
      by_cases hji : j = i
      · simp
        omega
      · exact ⟨(hbetween j (by omega) ht).1, Nat.le_of_lt_succ hj⟩

/-- A texture that pass `i` does not touch keeps its interval. -/
theorem Interval.Spans.succ {ps : List Pass} {i : Nat} {id : String} {iv : Interval}
    (h : Spans ps i id iv) (hi : ¬ Touches ps i id) : Spans ps (i + 1) id iv := by
  refine ⟨⟨Nat.lt_succ_of_lt h.first.1, h.first.2⟩, ⟨Nat.lt_succ_of_lt h.last.1, h.last.2⟩, ?_⟩
  intro j hj ht
  have hne : j ≠ i := fun heq => hi (heq ▸ ht)
  exact h.between j (by omega) ht

/-- The textures that are live are those that were touched, over the passes that
touch them. -/
theorem spans_liveness (ps : List Pass) (id : String) :
    (∀ iv, (liveness ps).get? id = some iv → iv.Spans ps ps.length id) ∧
      ((liveness ps).get? id = none → ∀ j < ps.length, ¬ Touches ps j id) := by
  refine foldl_zipIdx (fun i (live : Table Interval) =>
    (∀ iv, live.get? id = some iv → iv.Spans ps i id) ∧
      (live.get? id = none → ∀ j < i, ¬ Touches ps j id)) _ ps {} (by simp) ?_
  intro i p live hp ⟨hsome, hnone⟩
  have htouch : Touches ps i id ↔ id ∈ p.transients := by simp [Touches, hp]
  simp only [get?_foldl_touch]
  split
  · next hid =>
      refine ⟨fun iv hiv => ?_, by simp⟩
      rw [← Option.some.inj hiv]
      exact Interval.Spans.touch (htouch.2 hid) hsome hnone
  · next hid =>
      have hi : ¬ Touches ps i id := fun ht => hid (htouch.1 ht)
      refine ⟨fun iv hiv => (hsome iv hiv).succ hi, fun h j hj ht => ?_⟩
      by_cases hji : j = i
      · exact hi (hji ▸ ht)
      · exact hnone h j (by omega) ht

theorem Touches.lt_length {ps : List Pass} {j : Nat} {id : String} (h : Touches ps j id) :
    j < ps.length := by
  obtain ⟨p, hp, -⟩ := h
  exact (List.getElem?_eq_some_iff.1 hp).1

/-- A texture is live until the last pass that touches it. -/
theorem touches_le_last {ps : List Pass} {id : String} {iv : Interval} {j : Nat}
    (hlive : (liveness ps).get? id = some iv) (htouch : Touches ps j id) : j ≤ iv.last :=
  (((spans_liveness ps id).1 iv hlive).between j htouch.lt_length htouch).2

/-! ## the pool -/

namespace Pool

/-- What holds while the textures of pass `i` are given slots and freed; `done` are
the textures that were freed in this pass. -/
structure Sound (ps : List Pass) (i : Nat) (done : List String) (pool : Pool) : Prop where
  /-- Slots are numbers of specs, and only textures that were touched have one. -/
  given : ∀ id s, pool.slots.get? id = some s → s < pool.specs.length ∧ ∃ j ≤ i, Touches ps j id
  /-- Every texture of an earlier pass has a slot. -/
  placed : ∀ j < i, ∀ id, Touches ps j id → pool.slots.contains id
  /-- A free slot has the key it is kept under. -/
  keyed : ∀ key, ∀ f ∈ pool.free.getD key [], f.slot < pool.specs.length ∧
    (pool.specs.getD f.slot .surface).key = key
  /-- A slot is free once. -/
  once : ∀ key, ((pool.free.getD key []).map (·.slot)).Nodup
  /-- A slot is free since the last touch of every texture in it. -/
  since : ∀ key, ∀ f ∈ pool.free.getD key [], ∀ id, pool.slots.get? id = some f.slot →
    ∀ j, Touches ps j id → j ≤ f.since
  /-- A slot that is free since this pass was the slot of a texture freed in it. -/
  fresh : ∀ key, ∀ f ∈ pool.free.getD key [],
    f.since < i ∨ f.since = i ∧ ∃ id ∈ done, pool.slots.get? id = some f.slot
  /-- Textures in one slot do not meet. -/
  apart : ∀ v w s, v ≠ w → pool.slots.get? v = some s → pool.slots.get? w = some s →
    Precedes ps v w ∨ Precedes ps w v

variable {ps : List Pass} {i : Nat} {done : List String} {pool : Pool} {id : String}

theorem Sound.empty : Sound ps 0 [] {} where
  given := by simp
  placed := by simp
  keyed := by simp [Table.getD]
  once := by simp [Table.getD]
  since := by simp [Table.getD]
  fresh := by simp [Table.getD]
  apart := by simp

/-- A texture without a slot was not touched before. -/
theorem Sound.le_of_touches (h : Sound ps i done pool) (hid : pool.slots.contains id = false)
    {j : Nat} (hj : Touches ps j id) : i ≤ j := by
  by_contra hlt
  have := h.placed j (by omega) id hj
  simp [hid] at this

/-- A new slot is shared with nobody. -/
theorem Sound.placeNew (h : Sound ps i [] pool) (hi : Touches ps i id) (spec : TextureSpec) :
    Sound ps i [] { pool with
      slots := pool.slots.insert id pool.specs.length
      specs := pool.specs ++ [spec] } where
  given := by
    intro a s ha
    simp only [Table.get?_insert] at ha
    split at ha
    · next heq =>
        subst heq
        exact ⟨by simp [← Option.some.inj ha], i, Nat.le_refl i, hi⟩
    · obtain ⟨hs, ht⟩ := h.given a s ha
      exact ⟨by simp; omega, ht⟩
  placed := by
    intro j hj a ha
    simp [h.placed j hj a ha]
  keyed := by
    intro key f hf
    obtain ⟨hs, hk⟩ := h.keyed key f hf
    refine ⟨by simp; omega, ?_⟩
    simp only [List.getD_eq_getElem?_getD, List.getElem?_append_left hs]
    simpa only [List.getD_eq_getElem?_getD] using hk
  once := h.once
  since := by
    intro key f hf a ha
    simp only [Table.get?_insert] at ha
    split at ha
    · have hs := (h.keyed key f hf).1
      have heq := Option.some.inj ha
      omega
    · exact h.since key f hf a ha
  fresh := by
    intro key f hf
    rcases h.fresh key f hf with hlt | ⟨-, a, ha, -⟩
    · exact .inl hlt
    · simp at ha
  apart := by
    intro v w s hne hv hw
    simp only [Table.get?_insert] at hv hw
    split at hv <;> split at hw
    · next hv' hw' => exact absurd (hv'.trans hw'.symm) hne
    · have := (h.given w s hw).1
      have := Option.some.inj hv
      omega
    · have := (h.given v s hv).1
      have := Option.some.inj hw
      omega
    · exact h.apart v w s hne hv hw

/-- A slot that was free before the pass was last touched before the pass. -/
theorem Sound.placeFree (h : Sound ps i [] pool) (hi : Touches ps i id)
    (hid : pool.slots.contains id = false) {key : String} {f : FreeSlot}
    (hf : (pool.free.getD key []).find? (·.since < i) = some f) :
    Sound ps i [] { pool with
      slots := pool.slots.insert id f.slot
      free := pool.free.insert key ((pool.free.getD key []).eraseP (·.since < i)) } := by
  have hsince : f.since < i := by simpa using List.find?_some hf
  have hmem : f ∈ pool.free.getD key [] := List.mem_of_find?_eq_some hf
  -- the slots that are still free are the old ones without the slot that was given
  have hrest : ∀ k,
      ∀ f' ∈ (pool.free.insert key ((pool.free.getD key []).eraseP (·.since < i))).getD k [],
          f' ∈ pool.free.getD k [] ∧ f'.slot ≠ f.slot := by
    intro k f' hf'
    rw [Table.getD_insert] at hf'
    split at hf'
    · next heq =>
        subst heq
        obtain ⟨as, bs, hfree, herase⟩ := find?_eraseP_split hf
        rw [herase] at hf'
        have hnodup := h.once k
        rw [hfree] at hnodup ⊢
        refine ⟨by grind, ?_⟩
        simp only [List.map_append, List.map_cons, List.nodup_append, List.nodup_cons] at hnodup
        rcases List.mem_append.1 hf' with hf' | hf'
        · exact hnodup.2.2 _ (List.mem_map_of_mem hf') _ List.mem_cons_self
        · exact fun heq => hnodup.2.1.1 (heq ▸ List.mem_map_of_mem hf')
    · next hne =>
        refine ⟨hf', fun hslot => hne ?_⟩
        rw [← (h.keyed k f' hf').2, ← (h.keyed key f hmem).2, hslot]
  refine ⟨?_, ?_, ?_, ?_, ?_, ?_, ?_⟩
  · intro a s ha
    simp only [Table.get?_insert] at ha
    split at ha
    · next heq =>
        subst heq
        exact ⟨Option.some.inj ha ▸ (h.keyed key f hmem).1, i, Nat.le_refl i, hi⟩
    · exact h.given a s ha
  · intro j hj a ha
    simp [h.placed j hj a ha]
  · intro k f' hf'
    exact h.keyed k f' (hrest k f' hf').1
  · intro k
    rw [Table.getD_insert]
    split
    · exact ((List.eraseP_sublist).map _).nodup (h.once key)
    · exact h.once k
  · intro k f' hf' a ha
    simp only [Table.get?_insert] at ha
    obtain ⟨hold, hne⟩ := hrest k f' hf'
    split at ha
    · exact absurd (Option.some.inj ha).symm hne
    · exact h.since k f' hold a ha
  · intro k f' hf'
    rcases h.fresh k f' (hrest k f' hf').1 with hlt | ⟨-, a, ha, -⟩
    · exact .inl hlt
    · simp at ha
  · -- every texture that had the slot before was last touched before the pass
    have hbefore : ∀ v, pool.slots.get? v = some f.slot → Precedes ps v id := by
      intro v hv j k hj hk
      have h1 := h.since key f hmem v hv j hj
      have h2 := h.le_of_touches hid hk
      omega
    intro v w s hne hv hw
    simp only [Table.get?_insert] at hv hw
    split at hv <;> split at hw
    · next hv' hw' => exact absurd (hv'.trans hw'.symm) hne
    · next hv' _ => exact .inr (hv' ▸ hbefore w (Option.some.inj hv ▸ hw))
    · next _ hw' => exact .inl (hw' ▸ hbefore v (Option.some.inj hw ▸ hv))
    · exact h.apart v w s hne hv hw

/-- Giving a slot to a texture of the pass keeps the pool sound. -/
theorem Sound.place (h : Sound ps i [] pool) (textures : Table TextureSpec) (hi : Touches ps i id) :
    Sound ps i [] (pool.place textures i id) := by
  unfold Pool.place
  split
  · exact h
  · next hid =>
      have hid : pool.slots.contains id = false := by simpa using hid
      simp only
      split
      · next f hf => exact h.placeFree hi hid hf
      · exact h.placeNew hi _

/-- Placing a texture gives a slot to that one. -/
theorem contains_place (textures : Table TextureSpec) (i : Nat) (pool : Pool) (id a : String) :
    (pool.place textures i id).slots.contains a = (decide (a = id) || pool.slots.contains a) := by
  unfold Pool.place
  split
  · next h =>
      by_cases ha : a = id
      · simp [ha, h]
      · simp [ha]
  · simp only
    split <;> simp

/-- All textures of a pass are given slots. -/
theorem Sound.placeAll (textures : Table TextureSpec) :
    ∀ (ids : List String) (pool : Pool), Sound ps i [] pool → (∀ id ∈ ids, Touches ps i id) →
      Sound ps i [] (ids.foldl (Pool.place textures i) pool) ∧
        ∀ a, (ids.foldl (Pool.place textures i) pool).slots.contains a =
          (decide (a ∈ ids) || pool.slots.contains a)
  | [], _, h, _ => ⟨h, by simp⟩
  | id :: ids, pool, h, hids => by
      have hstep := h.place textures (hids id (by simp))
      obtain ⟨hsound, hslots⟩ := placeAll textures ids _ hstep fun a ha => hids a (by simp [ha])
      refine ⟨hsound, fun a => ?_⟩
      rw [List.foldl_cons, hslots, contains_place]
      by_cases ha : a = id <;> by_cases hm : a ∈ ids <;> simp [ha, hm]

/-- A sound pool is sound for more textures that are done. -/
theorem Sound.mono (h : Sound ps i done pool) {more : List String} (hsub : ∀ a ∈ done, a ∈ more) :
    Sound ps i more pool :=
  { h with
    fresh := fun key f hf =>
      (h.fresh key f hf).imp_right fun ⟨hi, a, ha, hslot⟩ => ⟨hi, a, hsub a ha, hslot⟩ }

/-- A texture that is touched last in this pass leaves a slot in which all textures
have had their last touch. -/
theorem Sound.free (h : Sound ps i done pool) (hi : Touches ps i id) (hnew : id ∉ done)
    (hdone : ∀ a ∈ done, Touches ps i a) (hlast : ∀ j, Touches ps j id → j ≤ i) {slot : Nat}
    (hslot : pool.slots.get? id = some slot) :
    Sound ps i (id :: done) { pool with
      free := pool.free.insert (pool.specs.getD slot .surface).key
        (pool.free.getD (pool.specs.getD slot .surface).key [] ++ [⟨slot, i⟩]) } := by
  -- two textures of one slot are not touched by one pass
  have halone : ∀ a, a ≠ id → Touches ps i a → pool.slots.get? a ≠ some slot := by
    intro a hne ha hget
    rcases h.apart a id slot hne hget hslot with hp | hp
    · exact Nat.lt_irrefl i (hp i i ha hi)
    · exact Nat.lt_irrefl i (hp i i hi ha)
  have hcases : ∀ k, ∀ f ∈ (pool.free.insert (pool.specs.getD slot .surface).key
      (pool.free.getD (pool.specs.getD slot .surface).key [] ++ [⟨slot, i⟩])).getD k [],
      f ∈ pool.free.getD k [] ∨ k = (pool.specs.getD slot .surface).key ∧ f = ⟨slot, i⟩ := by
    intro k f hf
    rw [Table.getD_insert] at hf
    split at hf
    · next heq =>
        rcases List.mem_append.1 hf with hf | hf
        · exact .inl (heq ▸ hf)
        · exact .inr ⟨heq, List.mem_singleton.1 hf⟩
    · exact .inl hf
  refine ⟨h.given, h.placed, ?_, ?_, ?_, ?_, h.apart⟩
  · intro k f hf
    rcases hcases k f hf with hf | ⟨rfl, rfl⟩
    · exact h.keyed k f hf
    · exact ⟨(h.given id slot hslot).1, rfl⟩
  · intro k
    rw [Table.getD_insert]
    split
    · rw [List.map_append, List.nodup_append]
      refine ⟨h.once _, by simp, ?_⟩
      intro a ha b hb hab
      obtain ⟨f, hf, rfl⟩ := List.mem_map.1 ha
      have hfslot : f.slot = slot := by simpa [hab] using hb
      -- a slot that is already free would be free since this pass, through another texture
      have hle : i ≤ f.since := h.since _ f hf id (hfslot ▸ hslot) i hi
      rcases h.fresh _ f hf with hlt | ⟨-, c, hc, hget⟩
      · omega
      · exact halone c (fun heq => hnew (heq ▸ hc)) (hdone c hc) (hfslot ▸ hget)
    · exact h.once k
  · intro k f hf a ha j hj
    rcases hcases k f hf with hf | ⟨-, rfl⟩
    · exact h.since k f hf a ha j hj
    · by_cases heq : a = id
      · subst heq
        exact hlast j hj
      · rcases h.apart a id slot heq ha hslot with hp | hp
        · exact Nat.le_of_lt (hp j i hj hi)
        · obtain ⟨m, hm, htouch⟩ := (h.given a slot ha).2
          have := hp i m hi htouch
          omega
  · intro k f hf
    rcases hcases k f hf with hf | ⟨-, rfl⟩
    · exact (h.mono fun a ha => List.mem_cons_of_mem id ha).fresh k f hf
    · exact .inr ⟨rfl, id, by simp, hslot⟩

/-- Freeing the slots of textures of the pass keeps the pool sound. -/
theorem Sound.release (h : Sound ps i done pool) (hi : Touches ps i id) (hnew : id ∉ done)
    (hdone : ∀ a ∈ done, Touches ps i a) :
    Sound ps i (id :: done) (pool.release (liveness ps) i id) := by
  have hmono : Sound ps i (id :: done) pool := h.mono fun a ha => List.mem_cons_of_mem id ha
  unfold Pool.release
  split
  · next slot iv hslot hiv =>
      split
      · next hlast =>
          exact h.free hi hnew hdone (fun j hj => hlast ▸ touches_le_last hiv hj) hslot
      · exact hmono
  · exact hmono

/-- Releasing a texture keeps the slots given. -/
theorem slots_release (live : Table Interval) (i : Nat) (pool : Pool) (id : String) :
    (pool.release live i id).slots = pool.slots := by
  unfold Pool.release
  split
  · split <;> rfl
  · rfl

/-- All textures of a pass are freed that it touches last. -/
theorem Sound.releaseAll : ∀ (ids done : List String) (pool : Pool), Sound ps i done pool →
    ids.Nodup → (∀ id ∈ ids, id ∉ done ∧ Touches ps i id) → (∀ a ∈ done, Touches ps i a) →
    (∃ done', Sound ps i done' (ids.foldl (Pool.release (liveness ps) i) pool)) ∧
      (ids.foldl (Pool.release (liveness ps) i) pool).slots = pool.slots
  | [], done, _, h, _, _, _ => ⟨⟨done, h⟩, rfl⟩
  | id :: ids, done, pool, h, hnodup, hids, hdone => by
      obtain ⟨hid, hnodup⟩ := List.nodup_cons.1 hnodup
      obtain ⟨hnew, htouch⟩ := hids id (by simp)
      have hstep := h.release htouch hnew hdone
      have hrest : ∀ a ∈ ids, a ∉ id :: done ∧ Touches ps i a := by
        intro a ha
        obtain ⟨ha', hta⟩ := hids a (by simp [ha])
        refine ⟨?_, hta⟩
        rw [List.mem_cons]
        rintro (rfl | hmem)
        · exact hid ha
        · exact ha' hmem
      have hdone' : ∀ a ∈ id :: done, Touches ps i a := by
        intro a ha
        rcases List.mem_cons.1 ha with rfl | ha
        · exact htouch
        · exact hdone a ha
      obtain ⟨hsound, hslots⟩ := releaseAll ids (id :: done) _ hstep hnodup hrest hdone'
      exact ⟨hsound, hslots.trans (slots_release _ _ _ _)⟩

/-- One pass keeps the pool sound. -/
theorem Sound.pass (h : Sound ps i [] pool) (textures : Table TextureSpec) {p : Pass}
    (hp : ps[i]? = some p) : Sound ps (i + 1) [] (pool.pass textures (liveness ps) i p) := by
  have htouch : ∀ id ∈ p.transients, Touches ps i id := fun id hid => ⟨p, hp, hid⟩
  obtain ⟨hplaced, hcontains⟩ := Sound.placeAll textures p.transients pool h htouch
  obtain ⟨⟨done, hfreed⟩, hslots⟩ := Sound.releaseAll p.transients [] _ hplaced
    (nodup_transients p) (fun id hid => ⟨by simp, htouch id hid⟩) (by simp)
  refine ⟨?_, ?_, hfreed.keyed, hfreed.once, hfreed.since, ?_, hfreed.apart⟩
  · intro id s hs
    obtain ⟨hlt, j, hj, ht⟩ := hfreed.given id s hs
    exact ⟨hlt, j, by omega, ht⟩
  · intro j hj id hid
    rw [Pool.pass, hslots, hcontains]
    by_cases hji : j = i
    · subst hji
      obtain ⟨q, hq, hmem⟩ := hid
      rw [hp] at hq
      simp [Option.some.inj hq ▸ hmem]
    · simp [h.placed j (by omega) id hid]
  · intro key f hf
    rcases hfreed.fresh key f hf with hlt | ⟨heq, -⟩
    · exact .inl (by omega)
    · exact .inl (by omega)

end Pool

/-- The pool after all passes of a graph. -/
theorem sound_allocate (g : Graph) : Pool.Sound g.passes g.passes.length []
    (g.passes.zipIdx.foldl (fun pool (p, i) => pool.pass g.textures (liveness g.passes) i p)
      {}) := by
  refine foldl_zipIdx (fun i pool => Pool.Sound g.passes i [] pool) _ _ _ Pool.Sound.empty ?_
  intro i p pool hp hsound
  exact hsound.pass g.textures hp

/-- Only textures that live within a frame are given slots. -/
theorem transient_of_slot (g : Graph) {id : String} {slot : Nat}
    (h : g.allocate.slots.get? id = some slot) : isPersistent id = false := by
  obtain ⟨-, j, -, p, -, hid⟩ := (sound_allocate g).given id slot h
  exact (mem_transients.1 hid).2

/-- Textures that are given one slot do not meet: all passes that touch the one
come before all passes that touch the other. -/
theorem separate_of_same_slot (g : Graph) {v w : String} {slot : Nat} (hne : v ≠ w)
    (hv : g.allocate.slots.get? v = some slot) (hw : g.allocate.slots.get? w = some slot) :
    Precedes g.passes v w ∨ Precedes g.passes w v :=
  (sound_allocate g).apart v w slot hne hv hw

end Graph

end EffectChain
