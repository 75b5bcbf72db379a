import EffectChain.Proofs.Render.ProgramCache

/-!
# EffectChain.Proofs.Render.FailedLoad

What a load that fails leaves behind.

Textures are created after everything else was accepted and are destroyed again when
one is refused.  They are new each time, for a renderer only remembers slots and the
buffers of its surfaces (`Executor.Session.tracked`), so that destroying them undoes
the load.  Programs are not undone.

* `failed_load_effect` — after a failed load the renderer and the textures of the
  backend are as before; the backend holds the programs that were compiled before the
  failure, and under every other name the program it held.
-/

namespace EffectChain

open Stocked

/-! ## backends that undo -/

/-- The requests of a load. -/
def Request.isLoading : Request → Bool
  | .compileProgram .. | .createTexture .. | .destroyTexture _ => true
  | _ => false

section loading

variable {β : Type} [Backend β]

/-- The states of a backend that requests of a load lead to. -/
inductive LoadsTo (b : β) : β → Prop
  | refl : LoadsTo b b
  | submit {b' : β} (h : LoadsTo b b') {c : Request} (hc : c.isLoading = true) :
      LoadsTo b (Backend.submit b' c).1

theorem LoadsTo.trans {b b' b'' : β} (h : LoadsTo b b') (h' : LoadsTo b' b'') : LoadsTo b b'' := by
  induction h' with
  | refl => exact h
  | submit _ hc ih => exact ih.submit hc

variable [Stocked β]

/-- All through a load, a texture that the backend holds can be destroyed. -/
def Forgiving (b : β) : Prop :=
  ∀ b' id, LoadsTo b b' → (stock b').textures.contains id = true →
    (Backend.submit b' (.destroyTexture id)).2 = none

theorem Forgiving.later {b b' : β} (hb : Forgiving b) (hpath : LoadsTo b b') : Forgiving b' :=
  fun b'' id h => hb b'' id (hpath.trans h)

/-- A texture is gone after it was destroyed, whether or not the backend held it. -/
theorem Forgiving.destroy {b b' : β} (hb : Forgiving b) (hpath : LoadsTo b b') (id : String) :
    (stock (Backend.submit b' (.destroyTexture id)).1).textures = (stock b').textures.erase id := by
  cases hsub : Backend.submit b' (.destroyTexture id) with
  | mk b₁ r =>
      cases r with
      | none => rw [stock_accepted hsub]; rfl
      | some refusal =>
          have habsent : (stock b').textures.get? id = none := by
            cases hheld : (stock b').textures.get? id with
            | none => rfl
            | some spec =>
                have haccepted := hb b' id hpath (Table.contains_iff.2 ⟨spec, hheld⟩)
                rw [hsub] at haccepted
                exact absurd haccepted (by simp)
          rw [stock_refused hsub]
          refine Table.ext_get? fun k => ?_
          rw [Table.get?_erase]
          split
          · next hk => rw [hk, habsent]
          · rfl

end loading

/-- A recorder that is open and is not made to keep its textures. -/
theorem Recorder.forgiving {r : Recorder} (hopen : r.closed = false)
    (hkeep : ∀ f ∈ r.failures, f.1.1 ≠ "DestroyTexture") : Forgiving r := by
  have hsame : ∀ r', LoadsTo r r' → r'.closed = false ∧ r'.failures = r.failures := by
    intro r' hpath
    induction hpath with
    | refl => exact ⟨hopen, rfl⟩
    | @submit r' _ c hc ih =>
        have hone : (r'.submit c).1.closed = r'.closed ∧ (r'.submit c).1.failures =
            r'.failures := by
          unfold Recorder.submit
          rw [ih.1]
          cases c <;> simp_all [Request.isLoading, Recorder.effect, Request.method] <;> grind
        exact ⟨hone.1.trans ih.1, hone.2.trans ih.2⟩
  intro r' id hpath hheld
  obtain ⟨hclosed, hfailures⟩ := hsame r' hpath
  have hnone : ∀ subject, r.failures.lookup ("DestroyTexture", subject) = none := by
    intro subject
    refine List.lookup_eq_none_iff.2 fun f hf => ?_
    have hmethod := hkeep f hf
    simp only [bne_iff_ne, ne_eq]
    intro heq
    exact hmethod (congrArg Prod.fst heq).symm
  have hheld' : r'.textures.contains id = true := hheld
  show (r'.submit (.destroyTexture id)).2 = none
  simp [Recorder.submit, hclosed, Recorder.failure?, hfailures, Request.method,
    Request.subject, hnone, Recorder.effect, hheld']

namespace Executor

variable {β : Type} {e e' : Executor β} {g : Graph}

/-! ## the textures a renderer remembers -/

/-- Every texture the renderer remembers is a slot or a buffer of one of its surfaces. -/
def Tracked (e : Executor β) : Prop :=
  ∀ t, e.textures.contains t = true →
    (∃ i spec, t = slotId i spec) ∨ ∃ id, e.surfaces.contains id = true ∧
      (t = id ++ "#0" ∨ t = id ++ "#1")

/-- Fewer textures and more surfaces stay tracked. -/
theorem Tracked.mono (h : e.Tracked)
    (htextures : ∀ t, e'.textures.contains t = true → e.textures.contains t = true)
    (hsurfaces : ∀ id, e.surfaces.contains id = true → e'.surfaces.contains id = true) :
    e'.Tracked := by
  intro t ht
  rcases h t (htextures t ht) with hslot | ⟨id, hid, hbuffer⟩
  · exact .inl hslot
  · exact .inr ⟨id, hsurfaces id hid, hbuffer⟩

/-- The textures a load creates. -/
def loadTextures (e : Executor β) (g : Graph) (alloc : Option Graph.Allocation) :
    List (String × TextureSpec) :=
  e.newTextures ((alloc.getD g.allocate).specs.zipIdx.map fun (spec, i) => (slotId i spec, spec))
    (e.newSurfaces g)

/-- It is a slot, or a buffer of a surface that is not there yet. -/
theorem loadTextures_cases {alloc : Option Graph.Allocation} {t : String × TextureSpec}
    (h : t ∈ e.loadTextures g alloc) :
    ((∃ i spec, t.1 = slotId i spec) ∧ e.textures.contains t.1 = false) ∨
      ∃ b ∈ e.newSurfaces g, e.surfaces.contains b.id = false ∧
      (t.1 = b.id ++ "#0" ∨ t.1 = b.id ++ "#1") := by
  rcases List.mem_append.1 h with h | h
  · obtain ⟨hslot, hnew⟩ := List.mem_filter.1 h
    obtain ⟨⟨spec, i⟩, -, rfl⟩ := List.mem_map.1 hslot
    exact .inl ⟨⟨i, spec, rfl⟩, by simpa using hnew⟩
  · obtain ⟨b, hb, ht⟩ := List.mem_flatMap.1 h
    obtain ⟨buffer, hbuffer, rfl⟩ := List.mem_map.1 ht
    refine .inr ⟨b, hb, ?_,
      (newSurfaces_named e g b hb).2.buffer (BufferPair.mem_buffers_iff.1 hbuffer)⟩
    obtain ⟨id, hid, rfl⟩ := List.mem_map.1 hb
    have hnew : e.surfaces.contains id = false := by simpa using (List.mem_filter.1 hid).2
    exact hnew

/-- What a load creates is not remembered yet. -/
theorem Tracked.loadTextures_fresh (h : e.Tracked) {alloc : Option Graph.Allocation}
    {t : String × TextureSpec} (ht : t ∈ e.loadTextures g alloc) : e.textures.get? t.1 = none := by
  have hfresh : e.textures.contains t.1 = false := by
    rcases loadTextures_cases ht with ⟨-, hfresh⟩ | ⟨b, hb, hnew, hname⟩
    · exact hfresh
    · cases hold : e.textures.contains t.1 with
      | false => rfl
      | true =>
          obtain ⟨hpersistent, -⟩ := newSurfaces_named e g b hb
          -- the buffers of one surface are neither slots nor buffers of another
          rcases h _ hold with ⟨i, spec, hslot⟩ | ⟨id, hid, hother⟩
          · rcases hname with hname | hname <;>
              exact absurd (hslot.symm.trans hname) (slotId_ne_append hpersistent i spec _)
          · have hsame : b.id = id := by
              rcases hname with hname | hname <;> rcases hother with hother | hother
              · exact eq_of_append_eq_append (hname.symm.trans hother)
              · exact absurd (hname.symm.trans hother) (append_zero_ne_append_one b.id id)
              · exact absurd (hother.symm.trans hname) (append_zero_ne_append_one id b.id)
              · exact eq_of_append_eq_append (hname.symm.trans hother)
            rw [hsame, hid] at hnew
            exact absurd hnew (by simp)
  simpa [Table.contains] using hfresh

variable [Backend β]

/-- A texture that is created is recorded. -/
theorem createTexture_none {t : String × TextureSpec} (h : e.createTexture t = (e', none)) :
    ∃ e₁, e.submit (.createTexture t.1 (t.2.sized e.width e.height)) = (e₁, none) ∧
      e' = { e₁ with textures := e.textures.insert t.1 t.2 } := by
  unfold createTexture at h
  split at h
  · simp at h
  · next e₁ hsub =>
      obtain rfl := (Prod.mk.inj h).1
      refine ⟨e₁, hsub, ?_⟩
      rw [(submit_backend hsub).1]

/-- A texture that is not created was refused. -/
theorem createTexture_some {t : String × TextureSpec} {err : RenderError}
    (h : e.createTexture t = (e', some err)) :
    ∃ r, e.submit (.createTexture t.1 (t.2.sized e.width e.height)) = (e', some r) := by
  unfold createTexture at h
  split at h
  · next e₁ r hsub =>
      obtain rfl := (Prod.mk.inj h).1
      exact ⟨r, hsub⟩
  · simp at h

/-- Discarding leaves the other textures. -/
theorem mem_of_discard {ids : List String} {t : String}
    (h : (e.discard ids).textures.contains t = true) :
    e.textures.contains t = true ∧ t ∉ ids := by
  unfold discard at h
  induction ids generalizing e with
  | nil => exact ⟨h, by simp⟩
  | cons id ids ih =>
      obtain ⟨hlater, hnot⟩ := ih h
      have hstill : (e.textures.erase id).contains t = true := hlater
      have hne : t ≠ id := by
        rintro rfl
        simp [Table.contains] at hstill
      refine ⟨?_, by simp [hne, hnot]⟩
      simpa [Table.contains, hne] using hstill

theorem Tracked.discard (h : e.Tracked) (ids : List String) : (e.discard ids).Tracked :=
  h.mono (fun _ ht => (mem_of_discard ht).1) fun id hid =>
    by rw [(discard_scene e ids).1]; exact hid

/-- Another size changes no texture that is noted, no surface and no graph. -/
theorem resize_keeps (e : Executor β) (width height : Int) :
    (e.resize width height).1.textures = e.textures ∧ SameScene e (e.resize width height).1 := by
  have hrecreate : ∀ (e₁ : Executor β) (t : String × TextureSpec),
      e₁.textures = e.textures ∧ SameScene e e₁ →
        (e₁.recreate t).1.textures = e.textures ∧ SameScene e (e₁.recreate t).1 := by
    intro e₁ t h
    unfold recreate
    split
    · next hsub => rw [(submit_backend hsub).1]; exact h
    · next hsub => rw [(submit_backend hsub).1]; exact h
  unfold resize
  split
  · exact ⟨rfl, rfl, rfl⟩
  · split
    · next hsub => rw [(submit_backend hsub).1]; exact ⟨rfl, rfl, rfl⟩
    · next e₁ hsub =>
        refine runList_keeps (f := recreate) (fun e₁ => e₁.textures = e.textures ∧ SameScene e e₁)
          hrecreate _ _ ?_
        rw [(submit_backend hsub).1]
        exact ⟨rfl, rfl, rfl⟩

/-- When all textures are created they are remembered, and no others. -/
theorem mem_of_createTextures {done : List String} {ts : List (String × TextureSpec)}
    (h : e.createTextures done ts = (e', none)) {t : String} (ht : e'.textures.contains t = true) :
    e.textures.contains t = true ∨ ∃ spec, (t, spec) ∈ ts := by
  fun_induction createTextures e done ts with
  | case1 e done =>
      obtain rfl := (Prod.mk.inj h).1
      exact .inl ht
  | case2 e done new ts e₁ hone ih =>
      obtain ⟨_, -, rfl⟩ := createTexture_none hone
      rcases ih h with hold | ⟨spec, hmem⟩
      · rw [Table.contains_insert, Bool.or_eq_true, decide_eq_true_iff] at hold
        rcases hold with rfl | hold
        · exact .inr ⟨new.2, List.mem_cons_self⟩
        · exact .inl hold
      · exact .inr ⟨spec, List.mem_cons_of_mem new hmem⟩
  | case3 e done new ts e₁ err hone => exact absurd (Prod.mk.inj h).2 (by simp)

/-- When a texture is refused, none of the new ones is remembered. -/
theorem mem_of_createTextures_refused {done : List String} {ts : List (String × TextureSpec)}
    {err : RenderError} (h : e.createTextures done ts = (e', some err)) {t : String}
    (ht : e'.textures.contains t = true) :
    e.textures.contains t = true ∧ t ∉ done := by
  fun_induction createTextures e done ts with
  | case1 e done => exact absurd (Prod.mk.inj h).2 (by simp)
  | case2 e done new ts e₁ hone ih =>
      obtain ⟨_, -, rfl⟩ := createTexture_none hone
      obtain ⟨hold, hnot⟩ := ih h
      rw [List.mem_append, not_or, List.mem_singleton] at hnot
      rw [Table.contains_insert, Bool.or_eq_true, decide_eq_true_iff] at hold
      exact ⟨hold.resolve_left hnot.2, hnot.1⟩
  | case3 e done new ts e₁ err' hone =>
      obtain ⟨r, hsub⟩ := createTexture_some hone
      obtain rfl := (Prod.mk.inj h).1
      have hkept : e₁.textures = e.textures := by rw [(submit_backend hsub).1]
      rw [← hkept]
      exact mem_of_discard ht

/-- Compiling programs is part of a load. -/
theorem compilePrograms_path (e : Executor β) (g : Graph) :
    LoadsTo e.backend (e.compilePrograms g).1.backend := by
  have hall := runList_keeps (f := compileProgram) (fun e₁ => LoadsTo e.backend e₁.backend)
    (fun e₁ p h => h.submit (c := .compileProgram p.1 p.2) rfl) (e.changedPrograms g) e .refl
  unfold compilePrograms
  dsimp only
  split <;> next hrun => rw [hrun] at hall; exact hall

/-- Loading that fails: the renderer is disposed of, or the load stops at a program or a
condition, or it stops at a texture. -/
theorem load_some {alloc : Option Graph.Allocation} {err : RenderError}
    (h : e.load g alloc = (e', some err)) :
    (e.disposed = true ∧ e' = e) ∨
      e.disposed = false ∧ ((∃ r, e.compilePrograms g = (e', r)) ∨
        ∃ e₁, e.compilePrograms g = (e₁, none) ∧
          e₁.createTextures [] (e₁.loadTextures g alloc) = (e', some err)) := by
  unfold load at h
  dsimp only at h
  split at h
  · next hd => exact .inl ⟨hd, (Prod.mk.inj h).1.symm⟩
  · next hd =>
      refine .inr ⟨by simpa using hd, ?_⟩
      split at h
      · next e₁ err' hcompile =>
          obtain rfl := (Prod.mk.inj h).1
          exact .inl ⟨_, hcompile⟩
      · next e₁ hcompile =>
          split at h
          · obtain rfl := (Prod.mk.inj h).1
            exact .inl ⟨_, hcompile⟩
          · split at h
            · next e₂ err' hcreate =>
                refine .inr ⟨e₁, hcompile, ?_⟩
                rw [← h]
                exact hcreate
            · exact absurd (Prod.mk.inj h).2 (by simp)

/-- A load that is refused leaves the surfaces and the graph. -/
theorem load_refused_scene {alloc : Option Graph.Allocation} {err : RenderError}
    (h : e.load g alloc = (e', some err)) : SameScene e e' := by
  have hcompile := compilePrograms_scene e g
  rcases load_some h with ⟨-, rfl⟩ | ⟨-, ⟨r, h₁⟩ | ⟨e₁, h₁, h₂⟩⟩
  · exact ⟨rfl, rfl⟩
  · rwa [h₁] at hcompile
  · have hcreate := createTextures_scene (e₁.loadTextures g alloc) e₁ []
    rw [h₁] at hcompile
    rw [h₂] at hcreate
    exact hcompile.trans hcreate

variable [Stocked β]

/-- Compiling leaves textures and surfaces alone. -/
theorem Tracked.compilePrograms {r : Option RenderError} (h : e.Tracked) (hd : e.disposed = false)
    (hcompile : e.compilePrograms g = (e', r)) : e'.Tracked := by
  obtain ⟨hsame, -, -⟩ := compilePrograms_stock hd hcompile
  rw [hsame]
  exact h.mono (fun _ ht => ht) fun _ hid => hid

/-- A failed load keeps the textures tracked. -/
theorem Tracked.load_fails {alloc : Option Graph.Allocation} {err : RenderError} (h : e.Tracked)
    (hload : e.load g alloc = (e', some err)) : e'.Tracked := by
  rcases load_some hload with ⟨-, rfl⟩ | ⟨hd, ⟨r, hcompile⟩ | ⟨e₁, hcompile, hcreate⟩⟩
  · exact h
  · exact h.compilePrograms hd hcompile
  · have hscene := createTextures_scene (e₁.loadTextures g alloc) e₁ []
    rw [hcreate] at hscene
    refine (h.compilePrograms hd hcompile).mono ?_ ?_
    · exact fun t ht => (mem_of_createTextures_refused hcreate ht).1
    · exact fun id hid => by rw [hscene.1]; exact hid

/-- A graph that is loaded brings its slots and the buffers of its new surfaces. -/
theorem Tracked.load_succeeds {alloc : Option Graph.Allocation} (h : e.Tracked)
    (hload : e.load g alloc = (e', none)) : e'.Tracked := by
  obtain ⟨e₁, e₂, passes, hd, hcompile, -, hcreate, rfl⟩ := load_none hload
  have htracked := h.compilePrograms hd hcompile
  have hscene := createTextures_scene (e₁.loadTextures g alloc) e₁ []
  rw [show e₁.createTextures [] (e₁.loadTextures g alloc) = (e₂, none) from hcreate] at hscene
  have hcontains : ∀ (bs : List BufferPair) (s : Table BufferPair) (id : String),
      (s.contains id = true ∨ ∃ b ∈ bs, b.id = id) →
        (bs.foldl (fun t b => t.insert b.id b) s).contains id = true := by
    intro bs
    induction bs with
    | nil => simp
    | cons b bs ih =>
        intro s id hid
        refine ih (s.insert b.id b) id ?_
        rw [Table.contains_insert]
        grind
  refine Tracked.discard ?_ _
  intro t ht
  rcases mem_of_createTextures hcreate ht with hold | ⟨spec, hnew⟩
  · rcases htracked t hold with hslot | ⟨id, hid, hbuffer⟩
    · exact .inl hslot
    · exact .inr ⟨id, hcontains _ _ id (.inl (by rw [hscene.1]; exact hid)), hbuffer⟩
  · rcases loadTextures_cases hnew with ⟨hslot, -⟩ | ⟨b, hb, -, hbuffer⟩
    · exact .inl hslot
    · exact .inr ⟨b.id, hcontains _ _ b.id (.inr ⟨b, hb, rfl⟩), hbuffer⟩

/-- A session remembers slots and the buffers of its surfaces only. -/
theorem Session.tracked {stale : List String} (h : Session e stale) : e.Tracked := by
  induction h with
  | start h =>
      intro t ht
      obtain ⟨w, h, rfl⟩ := start_fresh h
      simp at ht
  | backend h b hb ih => exact ih
  | @load e stale h g alloc ih =>
      cases hload : e.load g alloc with
      | mk e' r =>
          cases r with
          | none => exact ih.load_succeeds hload
          | some err => exact ih.load_fails hload
  | @frame e stale h state ih =>
      have hsame := frame_sustains e state
      exact ih.mono (fun t ht => hsame.textures ▸ ht) hsame.surfaces
  | @resize e stale h width height ih =>
      have hsame := resize_keeps e width height
      exact ih.mono (fun t ht => hsame.1 ▸ ht) fun id hid => hsame.2.1 ▸ hid
  | @dispose e stale h ih =>
      unfold Executor.dispose
      split
      · exact ih
      · intro t ht
        exact absurd (show (∅ : Table TextureSpec).contains t = true from ht) (by simp)

/-! ## undoing a load -/

/-- Midway through the textures of a load that started in `base`: nothing else has
changed, and the textures that were made are new. -/
structure Making (base : Executor β) (done : List String) (e : Executor β) : Prop where
  rest : e = { base with backend := e.backend, textures := e.textures }
  path : LoadsTo base.backend e.backend
  programs : e.stock.programs = base.stock.programs
  tracked : ∀ id, base.textures.get? id = if id ∈ done then none else e.textures.get? id
  held : ∀ id, base.stock.textures.get? id = if id ∈ done then none else e.stock.textures.get? id

namespace Making

variable {base : Executor β} {done : List String} {t : String × TextureSpec}

theorem refl (base : Executor β) : Making base [] base :=
  ⟨rfl, .refl, rfl, by simp, by simp⟩

/-- A texture that is refused leaves everything in place. -/
theorem refused {r : Refusal} (h : Making base done e)
    (hsub : e.submit (.createTexture t.1 (t.2.sized e.width e.height)) = (e', some r)) :
    Making base done e' := by
  obtain ⟨hsame, hanswer⟩ := submit_backend hsub
  have hstock := submit_refused hsub
  refine ⟨?_, ?_, by rw [hstock, h.programs], ?_, by rw [hstock]; exact h.held⟩
  · rw [hsame, h.rest]
  · have hpath := h.path.submit (c := .createTexture t.1 (t.2.sized e.width e.height)) rfl
    rwa [hanswer] at hpath
  · rw [hsame]
    exact h.tracked

/-- A texture that is accepted is new. -/
theorem created (h : Making base done e) (hnew : base.textures.get? t.1 = none)
    (hone : e.createTexture t = (e', none)) : Making base (done ++ [t.1]) e' := by
  obtain ⟨e₁, hsub, rfl⟩ := createTexture_none hone
  obtain ⟨hsame, hanswer⟩ := submit_backend hsub
  have hstock : e₁.stock = { e.stock with
      textures := e.stock.textures.insert t.1 (t.2.sized e.width e.height) } := submit_accepted hsub
  have hfresh : e.stock.textures.get? t.1 = none := created_fresh hanswer
  refine ⟨?_, ?_, ?_, ?_, ?_⟩
  · rw [hsame, h.rest]
  · have hpath := h.path.submit (c := .createTexture t.1 (t.2.sized e.width e.height)) rfl
    rwa [hanswer] at hpath
  · exact (congrArg Stock.programs hstock).trans h.programs
  · intro id
    rw [Table.get?_insert]
    by_cases hid : id = t.1
    · simp [hid, hnew]
    · simpa [hid] using h.tracked id
  · intro id
    have hheld :
        ({ e₁ with textures := e.textures.insert t.1 t.2 } : Executor β).stock.textures.get? id =
        if id = t.1 then some (t.2.sized e.width e.height) else e.stock.textures.get? id := by
      rw [← Table.get?_insert]
      exact congrArg (fun s : Stock => s.textures.get? id) hstock
    rw [hheld, h.held id]
    by_cases hid : id = t.1
    · simp [hid, hfresh]
    · simp [hid]

/-- Destroying what was made leads back to where the load started. -/
theorem undone (h : Making base done e) (hforgiving : Forgiving base.backend) :
    e.discard done = { base with backend := (e.discard done).backend } ∧ (e.discard done).stock =
      base.stock := by
  induction done generalizing e with
  | nil =>
      have htextures : e.textures = base.textures := Table.ext_get? fun id =>
        by simpa using (h.tracked id).symm
      have hheld : e.stock.textures = base.stock.textures :=
        Table.ext_get? fun id => by simpa using (h.held id).symm
      refine ⟨?_, Stock.ext hheld h.programs⟩
      show e = { base with backend := e.backend }
      rw [h.rest, htextures]
  | cons id done ih =>
      have hgone := hforgiving.destroy h.path id
      have hkept := discard_samePrograms e [id]
      refine ih (e := e.discard [id]) ⟨?_, ?_, hkept.2.trans h.programs, ?_, ?_⟩
      · conv_lhs => rw [h.rest]
        rfl
      · exact h.path.submit (c := .destroyTexture id) rfl
      · intro a
        have hview : (e.discard [id]).textures = e.textures.erase id := rfl
        rw [hview, Table.get?_erase, h.tracked a]
        by_cases ha : a = id <;> simp [ha]
      · intro a
        have hview : (e.discard [id]).stock.textures = e.stock.textures.erase id := hgone
        rw [hview, Table.get?_erase, h.held a]
        by_cases ha : a = id <;> simp [ha]

end Making

/-- When a texture is refused, those created before it leave no trace. -/
theorem createTextures_undone {base : Executor β} {done : List String}
    {ts : List (String × TextureSpec)} {err : RenderError} (h : Making base done e)
    (hforgiving : Forgiving base.backend) (hnew : ∀ t ∈ ts, base.textures.get? t.1 = none)
    (hcreate : e.createTextures done ts = (e', some err)) :
    e' = { base with backend := e'.backend } ∧ e'.stock = base.stock := by
  fun_induction createTextures e done ts with
  | case1 e done => exact absurd (Prod.mk.inj hcreate).2 (by simp)
  | case2 e done t ts e₁ hone ih =>
      exact ih (h.created (hnew t List.mem_cons_self) hone)
        (fun t' ht' => hnew t' (List.mem_cons_of_mem t ht'))
        hcreate
  | case3 e done t ts e₁ err' hone =>
      obtain ⟨r, hsub⟩ := createTexture_some hone
      obtain rfl := (Prod.mk.inj hcreate).1
      exact (h.refused hsub).undone hforgiving

end Executor

open Executor in
/-- A load that fails leaves the renderer as it was but for the hashes it remembers, and
the backend with its textures.  The programs that were compiled before the failure stay
in the place of the old ones: the program under a name is the same as before if and only
if the name was not compiled, or compiled to what was there. -/
theorem failed_load_effect {β : Type} [Backend β] [Stocked β] {e e' : Executor β}
    {stale : List String} {g : Graph} {alloc : Option Graph.Allocation} {err : RenderError}
    (hsession : Executor.Session e stale) (hforgiving : Forgiving e.backend)
    (h : e.load g alloc = (e', some err)) :
    e' = { e with backend := e'.backend, programs := e.recordedAfter g } ∧
      e'.stock.textures = e.stock.textures ∧
      (∀ id, e'.stock.programs.get? id = ((e.compiled g).lookup id).or (e.stock.programs.get? id)) ∧
      ∀ id, e'.stock.programs.get? id = e.stock.programs.get? id ↔
        (e.compiled g).lookup id = none ∨ (e.compiled g).lookup id = e.stock.programs.get? id := by
  have hprograms : ∀ id, e'.stock.programs.get? id =
      ((e.compiled g).lookup id).or (e.stock.programs.get? id) := by
    intro id
    have hload := (load_programs e g alloc).2
    rw [h] at hload
    rw [hload, Table.get?_foldl_insert_sorted (e.compiled_sorted g)]
  have hundone : e' = { e with backend := e'.backend, programs := e.recordedAfter g } ∧
      e'.stock.textures = e.stock.textures := by
    rcases load_some h with ⟨hd, rfl⟩ | ⟨hd, ⟨r, hcompile⟩ | ⟨e₁, hcompile, hcreate⟩⟩
    · have hkept : e'.recordedAfter g = e'.programs := by simp [recordedAfter, compiles, hd]
      exact ⟨by rw [hkept], rfl⟩
    · obtain ⟨hsame, hstock, -⟩ := compilePrograms_stock hd hcompile
      exact ⟨hsame, by rw [hstock]⟩
    · obtain ⟨hsame, hstock, -⟩ := compilePrograms_stock hd hcompile
      have hpath := compilePrograms_path e g
      rw [hcompile] at hpath
      have htracked := hsession.tracked.compilePrograms hd hcompile
      obtain ⟨hback, hstock'⟩ := createTextures_undone (.refl e₁) (hforgiving.later hpath)
        (fun t ht => htracked.loadTextures_fresh ht) hcreate
      refine ⟨?_, by rw [hstock', hstock]⟩
      rw [hback, hsame]
  refine ⟨hundone.1, hundone.2, hprograms, fun id => ?_⟩
  rw [hprograms id]
  cases hc : (e.compiled g).lookup id with
  | none => simp
  | some s => simp

/-- The backend before the load, and the programs of the load. -/
theorem tinted_facts : tinted.backend.closed = false ∧
    (∀ f ∈ tinted.backend.failures, f.1.1 ≠ "DestroyTexture") ∧
    (tinted.load retint none).2.isSome = true ∧
    tinted.current.map (·.graph.programs.get? "tint") =
      some (some { wgsl := "fn red() {}" }) ∧
    ((tinted.compiled retint).lookup "tint").or (tinted.stock.programs.get? "tint") =
      some { wgsl := "fn blue() {}" } := by
  decide +kernel

/-- The load fails at its second program, and the running graph draws with the first one
of the graph that was not loaded. -/
theorem failed_retint_replaces :
    Executor.Session tinted [] ∧ Forgiving tinted.backend ∧
    (tinted.load retint none).2.isSome = true ∧
      (tinted.load retint none).1.current.map (·.graph.programs.get? "tint") =
        some (some { wgsl := "fn red() {}" }) ∧
      (tinted.load retint none).1.stock.textures = tinted.stock.textures ∧
      (tinted.load retint none).1.stock.programs.get? "tint" = some { wgsl := "fn blue() {}" } := by
  obtain ⟨hopen, hkeeps, hfails, hcurrent, htint⟩ := tinted_facts
  have hforgiving := Recorder.forgiving hopen hkeeps
  obtain ⟨err, herr⟩ := Option.isSome_iff_exists.1 hfails
  have hload : tinted.load retint none = ((tinted.load retint none).1, some err) :=
    Prod.snd_eq_iff.1 herr
  obtain ⟨hsame, htextures, hprograms, -⟩ := failed_load_effect tinted_session hforgiving hload
  refine ⟨tinted_session, hforgiving, hfails, ?_, htextures, ?_⟩
  · have hsame : (tinted.load retint none).1.current = tinted.current := by rw [hsame]
    rw [hsame]
    exact hcurrent
  · rw [hprograms "tint"]
    exact htint

end EffectChain
