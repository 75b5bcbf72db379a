import EffectChain.Proofs.Render.FailedLoad

/-!
# EffectChain.Proofs.Render.Unfailing

Calls of a renderer on a backend that never fails.

Such a backend accepts every request that makes sense: it creates a texture that it does
not hold and destroys one that it holds, it compiles and takes a size.  What it does with
other requests is left open (`Unfailing`).

* `createTextures_works`, `load_works` — textures that are new and told apart are created,
  so that a load gets through;
* `resize_works` — a resize makes every texture anew that follows the size.
-/

namespace EffectChain

/-- The request creates no texture and destroys none. -/
def Request.SparesTextures : Request → Prop
  | .createTexture .. | .destroyTexture _ | .close => False
  | _ => True

/-- The request compiles a program or sets the size. -/
def Request.Prepares : Request → Prop
  | .compileProgram .. | .resize .. => True
  | _ => False

/-- While it works, the backend fails no request that makes sense, and it holds the textures
that were created and not destroyed. -/
structure Unfailing {β : Type} [Backend β] (works : β → Prop) (held : β → Table TextureSpec) :
    Prop where
  creates : ∀ {b : β} {id : String} (spec : TextureSpec), works b → (held b).contains id = false →
    ∃ b', Backend.submit b (.createTexture id spec) = (b', none) ∧ works b' ∧
      held b' = (held b).insert id spec
  destroys : ∀ {b : β} {id : String}, works b → (held b).contains id = true →
    ∃ b', Backend.submit b (.destroyTexture id) = (b', none) ∧ works b' ∧
      held b' = (held b).erase id
  spares : ∀ {b : β} {c : Request}, works b → c.SparesTextures →
    works (Backend.submit b c).1 ∧ held (Backend.submit b c).1 = held b
  prepares : ∀ {b : β} {c : Request}, works b → c.Prepares → (Backend.submit b c).2 = none

/-- A recorder that is open and is not made to fail. -/
def Recorder.Works (r : Recorder) : Prop := r.closed = false ∧ r.failures = []

/-- It remembers each request and lets it have its effect. -/
theorem Recorder.Works.submit {r : Recorder} (hr : r.Works) (c : Request) :
    Backend.submit r c = ({ r with history := c :: r.history } : Recorder).effect c := by
  obtain ⟨hopen, hfailures⟩ := hr
  show r.submit c = _
  simp [Recorder.submit, failure?, hopen, hfailures]

theorem Recorder.unfailing : Unfailing Recorder.Works Recorder.textures where
  creates {r id} spec hr hnew := by
    refine ⟨{ r with history := .createTexture id spec :: r.history,
                     textures := r.textures.insert id spec },
      ?_, hr, rfl⟩
    rw [hr.submit]
    simp [effect, hnew]
  destroys {r id} hr hheld := by
    refine ⟨{ r with history := .destroyTexture id :: r.history, textures := r.textures.erase id },
      ?_, hr, rfl⟩
    rw [hr.submit]
    simp [effect, hheld]
  spares {r c} hr hc := by
    rw [hr.submit]
    cases c <;> simp_all [effect, Request.SparesTextures, Works]
    grind
  prepares {r c} hr hc := by
    rw [hr.submit]
    cases c <;> simp_all [effect, Request.Prepares]

namespace Executor

variable {β : Type} [Backend β] {works : β → Prop} {held : β → Table TextureSpec} {e : Executor β}
    {g : Graph}
  {alloc : Option Graph.Allocation}

/-- A request is answered by the backend, and nothing else changes. -/
theorem submit_of {c : Request} {b : β} {r : Option Refusal}
    (h : Backend.submit e.backend c = (b, r)) :
    e.submit c = ({ e with backend := b }, r) := by
  simp [submit, h]

/-- A renderer starts without a texture being made. -/
theorem start_works (hb : Unfailing works held) {b b' : β} (hworks : works b) {width height : Int}
    (h : Executor.start b width height = (b', .ok e)) : works b' ∧ held b' = held b := by
  have hrun := runList_keeps_of_mem (f := Backend.submit) (fun b' => works b' ∧ held b' = held b)
    [.init, .resize (sizeOr width height).1 (sizeOr width height).2] ?_ b ⟨hworks, rfl⟩
  · unfold Executor.start at h
    dsimp only at h
    split at h
    · simp at h
    · rwa [(Prod.mk.inj h).1] at hrun
  · intro b₁ c hc ⟨hworks₁, hheld₁⟩
    have hspares : c.SparesTextures := by
      rcases List.mem_cons.1 hc with rfl | hc
      · trivial
      · rw [List.mem_singleton.1 hc]
        trivial
    obtain ⟨hworks₂, hheld₂⟩ := hb.spares hworks₁ hspares
    exact ⟨hworks₂, hheld₂.trans hheld₁⟩

/-! ## programs -/

/-- Programs are compiled. -/
theorem compilePrograms_works (hb : Unfailing works held) (hworks : works e.backend) (g : Graph) :
    ∃ b programs, e.compilePrograms g = ({ e with backend := b, programs }, none) ∧ works b ∧
      held b = held e.backend := by
  have hall : ∀ (ps : List (String × Shader)) (e : Executor β), works e.backend →
      ∃ b, runList compileProgram e ps = ({ e with backend := b }, none) ∧ works b ∧
          held b = held e.backend := by
    intro ps
    induction ps with
    | nil => exact fun e hworks => ⟨e.backend, rfl, hworks, rfl⟩
    | cons p ps ih =>
        intro e hworks
        obtain ⟨hworks₁, hheld₁⟩ := hb.spares (c := .compileProgram p.1 p.2) hworks trivial
        have hnone := hb.prepares (c := .compileProgram p.1 p.2) hworks trivial
        obtain ⟨b, hrest, hworks', hheld⟩ :=
          ih { e with backend := (Backend.submit e.backend (.compileProgram p.1 p.2)).1 } hworks₁
        refine ⟨b, ?_, hworks', hheld.trans hheld₁⟩
        rw [runList, compileProgram, submit_of (r := none) (Prod.ext rfl hnone)]
        exact hrest
  obtain ⟨b, hrun, hworks', hheld⟩ := hall (e.changedPrograms g) e hworks
  exact ⟨b, _, by rw [compilePrograms, hrun], hworks', hheld⟩

/-! ## textures -/

theorem createTexture_works (hb : Unfailing works held) (hworks : works e.backend)
    {t : String × TextureSpec} (hnew : (held e.backend).contains t.1 = false) :
    ∃ b, e.createTexture t = ({ e with backend := b, textures := e.textures.insert t.1 t.2 },
      none) ∧ works b ∧
      held b = (held e.backend).insert t.1 (t.2.sized e.width e.height) := by
  obtain ⟨b, hsub, hworks', hheld⟩ := hb.creates (t.2.sized e.width e.height) hworks hnew
  exact ⟨b, by rw [createTexture, submit_of hsub], hworks', hheld⟩

/-- Textures that the backend does not hold are created, when no name comes twice. -/
theorem createTextures_works (hb : Unfailing works held) {ts : List (String × TextureSpec)}
    (done : List String) (hworks : works e.backend) (hnodup : (ts.map (·.1)).Nodup)
    (hnew : ∀ t ∈ ts, (held e.backend).contains t.1 = false) :
    ∃ b, e.createTextures done ts =
        ({ e with backend := b, textures := ts.foldl (fun s t => s.insert t.1 t.2) e.textures },
          none) ∧ works b ∧
      held b = ts.foldl (fun s t => s.insert t.1 (t.2.sized e.width e.height))
        (held e.backend) := by
  induction ts generalizing e done with
  | nil => exact ⟨e.backend, rfl, hworks, rfl⟩
  | cons t ts ih =>
      obtain ⟨ht, hnodup⟩ := List.nodup_cons.1 hnodup
      obtain ⟨hfirst, hnew⟩ := List.forall_mem_cons.1 hnew
      obtain ⟨b, hone, hworks₁, hheld₁⟩ := createTexture_works hb hworks hfirst
      have hnew₁ : ∀ t' ∈ ts, (held b).contains t'.1 = false := by
        intro t' ht'
        have hne : t'.1 ≠ t.1 := fun heq => ht (List.mem_map.2 ⟨t', ht', heq⟩)
        rw [hheld₁, Table.contains_insert, hnew t' ht']
        simpa using hne
      obtain ⟨b', hrest, hworks', hheld⟩ :=
        ih (e := { e with backend := b, textures := e.textures.insert t.1 t.2 }) (done ++ [t.1])
          hworks₁ hnodup hnew₁
      refine ⟨b', ?_, hworks', by rw [hheld, hheld₁]; rfl⟩
      rw [createTextures, hone]
      exact hrest

/-- Textures that the backend holds are destroyed, when no name comes twice. -/
theorem discard_works (hb : Unfailing works held) {ids : List String} (hworks : works e.backend)
    (hnodup : ids.Nodup) (hheld : ∀ id ∈ ids, (held e.backend).contains id = true) :
    ∃ b, e.discard ids = { e with backend := b, textures := ids.foldl Table.erase e.textures } ∧
    works b ∧
      held b = ids.foldl Table.erase (held e.backend) := by
  induction ids generalizing e with
  | nil => exact ⟨e.backend, rfl, hworks, rfl⟩
  | cons id ids ih =>
      obtain ⟨hid, hnodup⟩ := List.nodup_cons.1 hnodup
      obtain ⟨hfirst, hheld⟩ := List.forall_mem_cons.1 hheld
      obtain ⟨b, hsub, hworks₁, hheld₁⟩ := hb.destroys hworks hfirst
      have hheld₂ : ∀ id' ∈ ids, (held b).contains id' = true := by
        intro id' hid'
        have hne : id' ≠ id := fun heq => hid (heq ▸ hid')
        rw [hheld₁]
        simpa [Table.contains, hne] using hheld id' hid'
      obtain ⟨b', hrest, hworks', hheld'⟩ :=
        ih (e := { e with backend := b, textures := e.textures.erase id }) hworks₁ hnodup hheld₂
      refine ⟨b', ?_, hworks', by rw [hheld', hheld₁]; rfl⟩
      rw [discard, List.foldl_cons, submit_of hsub]
      exact hrest

omit [Backend β] in
/-- The names of the textures that a load creates. -/
theorem loadTextures_ids (e : Executor β) (g : Graph) (alloc : Option Graph.Allocation) :
    (e.loadTextures g alloc).map (·.1) =
      (slotIds (alloc.getD g.allocate)).filter (!e.textures.contains ·) ++
        (e.newSurfaces g).flatMap BufferPair.buffers := by
  rw [loadTextures, newTextures, List.map_append, List.map_flatMap, slotIds, List.filter_map,
    List.filter_map, List.map_map]
  simp [Function.comp_def]

omit [Backend β] in
/-- The textures of a load are told apart by their names. -/
theorem loadTextures_nodup (e : Executor β) (g : Graph) (alloc : Option Graph.Allocation) :
    ((e.loadTextures g alloc).map (·.1)).Nodup := by
  have hslots : (slotIds (alloc.getD g.allocate)).Nodup := by
    refine List.nodup_iff_getElem?_ne_getElem?.2 fun i j hij hj heq => ?_
    exact absurd (slotIds_inj (heq.trans (List.getElem?_eq_getElem hj))
      (List.getElem?_eq_getElem hj)) (by omega)
  have hids : ((e.newSurfaces g).map (·.id)).Nodup := by
    rw [newSurfaces, List.map_map]
    show ((g.surfaces.filter (!e.surfaces.contains ·)).map id).Nodup
    rw [List.map_id]
    exact (g.textures.nodup_keys.filter _).filter _
  have hbuffers : ((e.newSurfaces g).flatMap BufferPair.buffers).Nodup := by
    refine List.nodup_flatMap.2 ⟨fun b _ => ?_,
      (List.pairwise_map.1 hids).imp_of_mem fun {a b} ha hb hne t hta htb => ?_⟩
    · unfold BufferPair.buffers
      split <;> simp_all
    · obtain ⟨-, hna⟩ := newSurfaces_named e g a ha
      obtain ⟨-, hnb⟩ := newSurfaces_named e g b hb
      exact hna.apart hnb hne (BufferPair.mem_buffers_iff.1 hta)
        (BufferPair.mem_buffers_iff.1 htb) rfl
  rw [loadTextures_ids]
  refine List.nodup_append.2 ⟨hslots.filter _, hbuffers, fun t ht t' ht' heq => ?_⟩
  obtain ⟨i, hi⟩ := List.mem_iff_getElem?.1 (List.mem_filter.1 ht).1
  obtain ⟨spec, rfl⟩ := slotIds_get? hi
  obtain ⟨b, hb, hbuffer⟩ := List.mem_flatMap.1 ht'
  obtain ⟨hp, hn⟩ := newSurfaces_named e g b hb
  exact hn.ne_slot hp (BufferPair.mem_buffers_iff.1 hbuffer) i spec heq

/-! ## loading and resizing -/

/-- A load gets through when its programs, its conditions and its textures are accepted. -/
theorem load_of {e₁ e₂ : Executor β} {passes : List LoadedPass} (hdisposed : e.disposed = false)
    (hcompile : e.compilePrograms g = (e₁, none))
    (hread : g.passes.mapM LoadedPass.read = .ok passes)
    (hcreate : e₁.createTextures [] (e₁.loadTextures g alloc) = (e₂, none)) :
    e.load g alloc = (({ e₂ with
      surfaces := (e₁.newSurfaces g).foldl (fun t (b : BufferPair) => t.insert b.id b) e₂.surfaces
      current := some { graph := g, alloc := alloc.getD g.allocate, passes,
                        slots := slotIds (alloc.getD g.allocate) } } : Executor β).releaseSlots
        (slotIds (alloc.getD g.allocate)), none) := by
  rw [loadTextures] at hcreate
  unfold load
  dsimp only
  rw [hdisposed, if_neg Bool.false_ne_true, hcompile]
  dsimp only
  rw [hread]
  dsimp only
  rw [hcreate]
  simp [slotIds, Function.comp_def]

/-- On a backend that never fails, a graph is loaded if its conditions can be read and the
backend holds none of the textures it needs. -/
theorem load_works (hb : Unfailing works held) (hworks : works e.backend)
    (hdisposed : e.disposed = false) {passes : List LoadedPass}
    (hread : g.passes.mapM LoadedPass.read = .ok passes)
    (hnew : ∀ t ∈ e.loadTextures g alloc, (held e.backend).contains t.1 = false) :
    ∃ b programs, works b ∧
      held b = (e.loadTextures g alloc).foldl (fun s t => s.insert t.1 (t.2.sized e.width e.height))
        (held e.backend) ∧
      e.load g alloc = (({ e with
        backend := b
        programs
        textures := (e.loadTextures g alloc).foldl (fun s t => s.insert t.1 t.2) e.textures
        surfaces := (e.newSurfaces g).foldl (fun t (b : BufferPair) => t.insert b.id b) e.surfaces
        current := some { graph := g, alloc := alloc.getD g.allocate, passes,
                          slots := slotIds (alloc.getD g.allocate) } } : Executor β).releaseSlots
          (slotIds (alloc.getD g.allocate)), none) := by
  obtain ⟨b₁, programs, hcompile, hworks₁, hheld₁⟩ := compilePrograms_works hb hworks g
  rw [← hheld₁] at hnew
  obtain ⟨b, hcreate, hworks₂, hheld⟩ :=
    createTextures_works (e := { e with backend := b₁, programs }) hb []
    hworks₁ (e.loadTextures_nodup g alloc) hnew
  exact ⟨b, programs, hworks₂, hheld.trans (by rw [hheld₁]),
    load_of hdisposed hcompile hread hcreate⟩

/-- When a condition cannot be read, a load ends before it asks for textures. -/
theorem load_unread (hb : Unfailing works held) (hworks : works e.backend)
    (hdisposed : e.disposed = false) (alloc : Option Graph.Allocation) {err : RenderError}
    (hread : g.passes.mapM LoadedPass.read = .error err) :
    ∃ b programs, works b ∧ held b = held e.backend ∧
      e.load g alloc = ({ e with backend := b, programs }, some err) := by
  obtain ⟨b, programs, hcompile, hworks₁, hheld₁⟩ := compilePrograms_works hb hworks g
  refine ⟨b, programs, hworks₁, hheld₁, ?_⟩
  unfold load
  dsimp only
  rw [if_neg (by simp [hdisposed]), hcompile]
  dsimp only
  rw [hread]

/-- A texture that the backend holds is made anew. -/
theorem recreate_works (hb : Unfailing works held) (hworks : works e.backend)
    {t : String × TextureSpec} (hheld : (held e.backend).contains t.1 = true) :
    ∃ b, e.recreate t = ({ e with backend := b }, none) ∧ works b ∧
      held b = (held e.backend).insert t.1 (t.2.sized e.width e.height) := by
  obtain ⟨b₁, hgone, hworks₁, hheld₁⟩ := hb.destroys hworks hheld
  have hnew : (held b₁).contains t.1 = false := by simp [hheld₁, Table.contains]
  obtain ⟨b, hmade, hworks₂, hheld₂⟩ := hb.creates (t.2.sized e.width e.height) hworks₁ hnew
  refine ⟨b, ?_, hworks₂, by rw [hheld₂, hheld₁, Table.insert_erase]⟩
  rw [recreate, submit_of hgone]
  dsimp only
  rw [submit_of hmade]
  rfl

/-- On a backend that never fails, the size is changed if the backend holds the textures
that follow it. -/
theorem resize_works (hb : Unfailing works held) (hworks : works e.backend)
    (hdisposed : e.disposed = false) (width height : Int)
    (hheld : ∀ t ∈ e.textures.entries.filter (·.2.follows), (held e.backend).contains t.1 = true) :
    ∃ b, e.resize width height = ({ e with backend := b, width, height }, none) ∧ works b ∧
      held b = (e.textures.entries.filter (·.2.follows)).foldl
        (fun s t => s.insert t.1 (t.2.sized width height)) (held e.backend) := by
  have hall : ∀ (ts : List (String × TextureSpec)) (e : Executor β), works e.backend →
      (∀ t ∈ ts, (held e.backend).contains t.1 = true) →
      ∃ b, runList recreate e ts = ({ e with backend := b }, none) ∧ works b ∧
        held b = ts.foldl (fun s t => s.insert t.1 (t.2.sized e.width e.height))
            (held e.backend) := by
    intro ts
    induction ts with
    | nil => exact fun e hworks _ => ⟨e.backend, rfl, hworks, rfl⟩
    | cons t ts ih =>
        intro e hworks hheld
        obtain ⟨hfirst, hheld⟩ := List.forall_mem_cons.1 hheld
        obtain ⟨b₁, hone, hworks₁, hheld₁⟩ := recreate_works hb hworks hfirst
        have hstill : ∀ t' ∈ ts, (held b₁).contains t'.1 = true := by
          intro t' ht'
          rw [hheld₁, Table.contains_insert, hheld t' ht', Bool.or_true]
        obtain ⟨b, hrest, hworks₂, hheld₂⟩ := ih { e with backend := b₁ } hworks₁ hstill
        refine ⟨b, ?_, hworks₂, by rw [hheld₂, hheld₁]; rfl⟩
        rw [runList, hone]
        exact hrest
  obtain ⟨hworks₁, hheld₁⟩ := hb.spares (c := .resize width height) hworks trivial
  have hnone := hb.prepares (c := .resize width height) hworks trivial
  obtain ⟨b, hrun, hworks₂, hheld₂⟩ := hall (e.textures.entries.filter (·.2.follows))
    { e with backend := (Backend.submit e.backend (.resize width height)).1, width, height } hworks₁
    (fun t ht => by rw [hheld₁]; exact hheld t ht)
  refine ⟨b, ?_, hworks₂, by rw [hheld₂, hheld₁]⟩
  rw [resize, if_neg (by simp [hdisposed]), submit_of (r := none) (Prod.ext rfl hnone)]
  exact hrun

end Executor

end EffectChain
