import EffectChain.Proofs.Render.Inventory
import EffectChain.Proofs.Render.SharedStorage

/-!
# EffectChain.Proofs.Render.SurfaceSpecs

What the buffers of a surface were made as.

A surface outlives the graph that brought it, and a later graph that declares it anew finds it
there.  So its buffers stay what the first graph declared, whatever the later ones do.

* `Executor.Course.dated` — every buffer was asked for as the first graph with the surface has it;
* `surface_matches_iff` — the buffers are what a loaded graph declares exactly when this comes to
  the same texture as what the first graph declared.
-/

namespace EffectChain

/-! ## entries that are told apart -/

namespace Table

variable {α : Type} {es : List (String × α)} {k : String} {v : α}

theorem get?_foldl_insert_of_not_mem (t : Table α) (h : k ∉ es.map (·.1)) :
    (es.foldl (fun t e => t.insert e.1 e.2) t).get? k = t.get? k := by
  induction es generalizing t with
  | nil => rfl
  | cons e es ih =>
      obtain ⟨hne, hrest⟩ : k ≠ e.1 ∧ k ∉ es.map (·.1) := by simpa using h
      rw [List.foldl_cons, ih _ hrest, get?_insert, if_neg hne]

/-- An entry is found when no other has its key. -/
theorem get?_foldl_insert_of_mem (t : Table α) (hnodup : (es.map (·.1)).Nodup) (h : (k, v) ∈ es) :
    (es.foldl (fun t e => t.insert e.1 e.2) t).get? k = some v := by
  induction es generalizing t with
  | nil => simp at h
  | cons e es ih =>
      obtain ⟨hfirst, hrest⟩ := List.nodup_cons.1 hnodup
      rcases List.mem_cons.1 h with rfl | h
      · rw [List.foldl_cons, get?_foldl_insert_of_not_mem _ hfirst, get?_insert, if_pos rfl]
      · exact ih _ hrest h

end Table

/-! ## what graphs declare -/

/-- What the first of the graphs that has a texture declares for it. -/
def firstSpec (seen : List Graph) (id : String) : Option TextureSpec :=
  seen.findSome? (·.textures.get? id)

theorem firstSpec_concat (seen : List Graph) (g : Graph) (id : String) :
    firstSpec (seen ++ [g]) id = (firstSpec seen id).or (g.textures.get? id) := by
  simp only [firstSpec, List.findSome?_append, List.findSome?_cons, List.findSome?_nil]
  cases g.textures.get? id <;> rfl

/-- The surfaces of a graph are the persistent ones of its textures. -/
theorem Graph.mem_surfaces_iff {g : Graph} {id : String} :
    id ∈ g.surfaces ↔ Graph.isPersistent id = true ∧ ∃ spec, g.textures.get? id = some spec := by
  rw [surfaces, List.mem_filter, Table.mem_keys_iff, Table.contains_iff, and_comm]

namespace Executor

variable {β : Type} [Backend β] {works : β → Prop} {held : β → Table TextureSpec}
    {e e' : Executor β}
  {seen : List Graph} {g : Graph} {alloc : Option Graph.Allocation}

/-- Buffers of a surface that is there are kept, and any others are made as the graph declares
them. -/
theorem Inventory.load_buffer (hb : Unfailing works held) (h : Inventory works held e seen)
    (hload : e.load g alloc = (e', none)) {id t : String} (hid : e'.surfaces.contains id = true)
    (ht : t ∈ BufferPair.buffersOf id) :
    e'.textures.get? t =
      if e.surfaces.contains id then e.textures.get? t else some (g.textures.getD id .surface) := by
  have hsurfaces := load_surfaces hload
  obtain ⟨e₁, e₂, passes, -, hcompile, hread, hcreate, he'⟩ := load_none hload
  have hloaded := (h.load hb alloc hread).2.1
  rw [hload] at hloaded
  have hscene := (compilePrograms_scene e g).1
  have htextures := compilePrograms_textures e g
  rw [hcompile] at hscene htextures
  dsimp only at hscene htextures
  have hsame : e₁.loadTextures g alloc = e.loadTextures g alloc := by
    simp only [loadTextures, newTextures, newSurfaces, hscene, htextures]
  change e₁.createTextures [] (e₁.loadTextures g alloc) = (e₂, none) at hcreate
  rw [hsame] at hcreate
  -- what is made is remembered when slots are given back, for buffers are no slots
  have hkept : e'.textures.get? t =
      ((e.loadTextures g alloc).foldl (fun s t => s.insert t.1 t.2) e.textures).get? t := by
    have hcontains : e'.textures.contains t = true := (hloaded.textures t).2 (.inr ⟨id, hid, ht⟩)
    rw [he', releaseSlots, discard_textures] at hcontains ⊢
    rw [Table.get?_foldl_erase, if_neg ((Table.contains_foldl_erase _ _ t).1 hcontains).2]
    change e₂.textures.get? t = _
    rw [createTextures_textures hcreate, htextures]
  rw [hkept]
  split
  · next hold =>
      have hthere : e.textures.contains t = true := (h.textures t).2 (.inr ⟨id, hold, ht⟩)
      refine Table.get?_foldl_insert_of_not_mem _ fun hmem => ?_
      obtain ⟨x, hx, rfl⟩ := List.mem_map.1 hmem
      have hfresh := h.fresh hx
      rw [h.contains_held, hthere] at hfresh
      cases hfresh
  · next hnew =>
      have hmem : id ∈ g.surfaces := by
        rw [hsurfaces] at hid
        exact ((Inventory.contains_newSurfaces e g id).1 hid).resolve_left hnew
      refine Table.get?_foldl_insert_of_mem _ (e.loadTextures_nodup g alloc)
        (List.mem_append_right _ ?_)
      refine List.mem_flatMap.2 ⟨.ofSurface id (g.textures.getD id .surface), ?_,
        List.mem_map.2 ⟨t, ?_, rfl⟩⟩
      · exact List.mem_map.2 ⟨id, List.mem_filter.2 ⟨hmem, by simpa using hnew⟩, rfl⟩
      · exact (BufferPair.named_ofSurface id _).mem_buffers_iff.2 ht

/-- Every buffer was asked for as the first graph with its surface declares it. -/
def Dated (e : Executor β) (seen : List Graph) : Prop :=
  ∀ id, e.surfaces.contains id = true →
    ∃ first, firstSpec seen id = some first ∧ ∀ t ∈ BufferPair.buffersOf id,
      e.textures.get? t = some first

theorem Dated.load (hb : Unfailing works held) (h : Inventory works held e seen)
    (hdated : e.Dated seen) (hload : e.load g alloc = (e', none)) : e'.Dated (seen ++ [g]) := by
  intro id hid
  have hbuffer := fun t => h.load_buffer hb hload (t := t) hid
  cases hold : e.surfaces.contains id with
  | true =>
      obtain ⟨first, hfirst, hkept⟩ := hdated id hold
      refine ⟨first, by rw [firstSpec_concat, hfirst, Option.some_or], fun t ht => ?_⟩
      rw [hbuffer t ht, if_pos hold]
      exact hkept t ht
  | false =>
      have hmem : id ∈ g.surfaces := by
        rw [load_surfaces hload] at hid
        exact ((Inventory.contains_newSurfaces e g id).1 hid).resolve_left (by simp [hold])
      obtain ⟨hpersistent, spec, hspec⟩ := Graph.mem_surfaces_iff.1 hmem
      have hnone : firstSpec seen id = none := by
        refine List.findSome?_eq_none_iff.2 fun g' hg' => ?_
        by_contra hsome
        obtain ⟨spec', hspec'⟩ := Option.ne_none_iff_exists'.1 hsome
        have hthere : e.surfaces.contains id = true :=
          (h.surfaces id).2 ⟨g', hg', Graph.mem_surfaces_iff.2 ⟨hpersistent, spec', hspec'⟩⟩
        rw [hold] at hthere
        cases hthere
      refine ⟨spec, by rw [firstSpec_concat, hnone, Option.none_or, hspec], fun t ht => ?_⟩
      rw [hbuffer t ht, if_neg (by simp [hold]), Table.getD_of_get? _ hspec]

/-- So it is after every call. -/
theorem Course.dated (hb : Unfailing works held) (h : Course works held e seen) : e.Dated seen := by
  induction h with
  | start _ _ h =>
      obtain ⟨_, _, rfl⟩ := start_fresh h
      intro id hid
      simp at hid
  | @load e seen h g alloc ih =>
      have hinventory := h.inventory hb
      cases hload : e.load g alloc with
      | mk e' r =>
          cases r with
          | none => exact ih.load hb hinventory hload
          | some err =>
              cases hread : g.passes.mapM LoadedPass.read with
              | ok passes =>
                  have hnone := (hinventory.load hb alloc hread).1
                  simp [hload] at hnone
              | error err' =>
                  obtain ⟨b, programs, -, -, hfails⟩ :=
                    load_unread hb hinventory.working hinventory.live alloc hread
                  obtain rfl := (Prod.mk.inj (hload.symm.trans hfails)).1
                  exact ih
  | @frame e seen h state ih =>
      intro id hid
      rw [(frame_reworked (h.inventory hb).tidied state).contains] at hid
      rw [sameTextures_carried.frame e state]
      exact ih id hid
  | @resize e seen h width height ih =>
      obtain ⟨htextures, hscene⟩ := resize_keeps e width height
      intro id hid
      rw [hscene.1] at hid
      rw [htextures]
      exact ih id hid

end Executor

open Executor in
/-- After a load that succeeds, on a backend that never fails, each persistent texture of the graph
has its buffers, and the backend holds them in the size that goes with the viewport, as the first
graph that had the texture declared it: this one, or one that was loaded before.  So they are what
this graph declares exactly if that comes to the same texture. -/
theorem surface_matches_iff {β : Type} [Backend β] {works : β → Prop} {held : β → Table TextureSpec}
    (hb : Unfailing works held) {e e' : Executor β} {seen : List Graph}
    (h : Executor.Course works held e seen) {g : Graph} {alloc : Option Graph.Allocation}
    (hload : e.load g alloc = (e', none)) {id : String} {spec : TextureSpec}
    (hpersistent : Graph.isPersistent id = true) (hspec : g.textures.get? id = some spec) :
    ∃ b first, e'.surfaces.get? id = some b ∧ firstSpec (seen ++ [g]) id = some first ∧
      (∀ t ∈ b.buffers, (held e'.backend).get? t = some (first.sized e'.width e'.height)) ∧
      ((∀ t ∈ b.buffers, (held e'.backend).get? t = some (spec.sized e'.width e'.height)) ↔
        first.sized e'.width e'.height = spec.sized e'.width e'.height) := by
  have hcourse : Executor.Course works held e' (seen ++ [g]) := by
    have hseen := h.load g alloc
    rwa [hload] at hseen
  have hinventory := hcourse.inventory hb
  have hid : e'.surfaces.contains id = true :=
    (hinventory.surfaces id).2 ⟨g, by simp, Graph.mem_surfaces_iff.2 ⟨hpersistent, spec, hspec⟩⟩
  obtain ⟨b, hget⟩ := Table.contains_iff.1 hid
  obtain ⟨first, hfirst, hkept⟩ := hcourse.dated hb id hid
  have hnamed := (hinventory.tidied.surfaces id b hget).2
  have hheld : ∀ t ∈ b.buffers,
      (held e'.backend).get? t = some (first.sized e'.width e'.height) := by
    intro t ht
    rw [hinventory.sized, Table.get?_map, hkept t (hnamed.mem_buffers_iff.1 ht)]
    rfl
  refine ⟨b, first, hget, hfirst, hheld, fun hall => ?_, fun hsame t ht => ?_⟩
  · have hread := b.read_mem_buffers
    exact Option.some.inj ((hheld _ hread).symm.trans (hall _ hread))
  · rw [hheld t ht, hsame]

/-- A graph that draws to a surface of its own. -/
def haze (spec : TextureSpec) : Graph where
  passes := [{ id := "a", program := "fill", outputs := .ofList [("color", "global_haze")] }]
  programs := .ofList [("fill", { wgsl := "fn fill() \x7b\x7d" })]
  textures := .ofList [("global_haze", spec)]
  render := "global_haze"

/-- A renderer that draws the graph with the surface as large as the viewport. -/
def hazed : Executor Recorder := (mistStart.load (haze .surface) none).1

/-- When the surface is declared anew in another format and size, its buffers are left as they
were. -/
theorem haze_left_as_it_was :
    Executor.Course Recorder.Works Recorder.textures hazed [haze .surface] ∧
      (hazed.load (haze { format := .rgba16float, width := 8, height := 8 }) none).2 = none ∧
      ∃ b, (hazed.load (haze { format := .rgba16float, width := 8, height := 8 })
        none).1.surfaces.get?
          "global_haze" = some b ∧
        (∀ t ∈ b.buffers,
          (hazed.load (haze { format := .rgba16float, width := 8, height := 8 })
            none).1.backend.textures.get? t =
            some { width := 64, height := 32, depth := 1 }) ∧
        ¬ ∀ t ∈ b.buffers,
          (hazed.load (haze { format := .rgba16float, width := 8, height := 8 })
            none).1.backend.textures.get? t =
            some { format := .rgba16float, width := 8, height := 8, depth := 1 } := by
  generalize hdeep : haze { format := .rgba16float, width := 8, height := 8 } = deep
  have hstart : Executor.start ({} : Recorder) 64 32 = (mistStart.backend, .ok mistStart) := rfl
  have hcourse : Executor.Course Recorder.Works Recorder.textures hazed [haze .surface] := by
    have hbegun : Executor.Course Recorder.Works Recorder.textures mistStart [] :=
      .start ⟨rfl, rfl⟩ rfl hstart
    have hseen := hbegun.load (haze .surface) none
    rwa [if_pos (by decide +kernel)] at hseen
  have hfacts : (hazed.load deep none).2.isNone = true ∧ (hazed.load deep none).1.width = 64 ∧
      (hazed.load deep none).1.height = 32 ∧ Graph.isPersistent "global_haze" = true ∧
      deep.textures.get? "global_haze" = some { format := .rgba16float, width := 8, height := 8 } ∧
      firstSpec ([haze .surface] ++ [deep]) "global_haze" = some .surface := by
    rw [← hdeep]
    decide +kernel
  obtain ⟨hnone, hwidth, hheight, hpersistent, hspec, hfirst⟩ := hfacts
  have hload : hazed.load deep none = ((hazed.load deep none).1, none) :=
    Prod.snd_eq_iff.1 (Option.isNone_iff_eq_none.1 hnone)
  obtain ⟨b, first, hget, hfirst', hheld, hmatches⟩ :=
    surface_matches_iff Recorder.unfailing hcourse hload hpersistent hspec
  obtain rfl := Option.some.inj (hfirst'.symm.trans hfirst)
  rw [hwidth, hheight] at hheld hmatches
  exact ⟨hcourse, Option.isNone_iff_eq_none.1 hnone, b, hget, hheld,
    fun hall => absurd (hmatches.1 hall) (by decide)⟩

end EffectChain
