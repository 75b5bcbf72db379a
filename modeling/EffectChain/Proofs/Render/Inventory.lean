import EffectChain.Proofs.Render.Reworked
import EffectChain.Proofs.Render.Unfailing

/-!
# EffectChain.Proofs.Render.Inventory

What a backend that never fails holds for its renderer.

The renderer remembers every texture it made, and the backend holds just these, in the size
that goes with the viewport.  Slots that no graph uses any more are given back when the next
one is loaded.  Surfaces outlive their graphs, so the buffers of every surface that was ever
loaded stay (`Executor.Inventory`).

* `Inventory.load`, `Inventory.frame`, `Inventory.resize` — what the calls keep;
* `no_leak_no_stale_size` — what the backend holds after a run of them.
-/

namespace EffectChain

/-- A texture that does not follow the viewport has one size. -/
theorem TextureSpec.sized_of_fixed {s : TextureSpec} (hfixed : s.follows = false)
    (w h w' h' : Int) :
    s.sized w h = s.sized w' h' := by
  obtain ⟨hw, hh⟩ : s.width ≠ 0 ∧ s.height ≠ 0 := by simpa [follows] using hfixed
  simp [sized, hw, hh]

/-- The buffers of surfaces are told from the names of the surfaces. -/
theorem Tidy.exists_buffers_iff {s : Table BufferPair} (h : Tidy s) (t : String) :
    (∃ b ∈ s.values, t ∈ b.buffers) ↔ ∃ id, s.contains id = true ∧ t ∈ BufferPair.buffersOf id := by
  constructor
  · rintro ⟨b, hb, ht⟩
    obtain ⟨id, hid⟩ := Table.mem_values_iff.1 hb
    exact ⟨id, Table.contains_iff.2 ⟨b, hid⟩, (h id b hid).2.mem_buffers_iff.1 ht⟩
  · rintro ⟨id, hid, ht⟩
    obtain ⟨b, hb⟩ := Table.contains_iff.1 hid
    exact ⟨b, Table.mem_values_iff.2 ⟨id, hb⟩, (h id b hb).2.mem_buffers_iff.2 ht⟩

namespace Executor

variable {β : Type} {works : β → Prop} {held : β → Table TextureSpec} {e e' : Executor β}
    {seen : List Graph}
  {g : Graph} {alloc : Option Graph.Allocation}

/-- The renderers that loads, frames and changes of the size lead to, from a backend that
holds nothing yet, with the graphs that were loaded so far. -/
inductive Course [Backend β] (works : β → Prop) (held : β → Table TextureSpec) :
    Executor β → List Graph → Prop
  | start {b b' : β} {width height : Int} {e : Executor β} (hworks : works b) (hempty : held b = {})
      (h : Executor.start b width height = (b', .ok e)) : Course works held e []
  | load {e : Executor β} {seen : List Graph} (h : Course works held e seen) (g : Graph)
      (alloc : Option Graph.Allocation) :
      Course works held (e.load g alloc).1 (if (e.load g alloc).2.isNone then seen ++ [g] else seen)
  | frame {e : Executor β} {seen : List Graph} (h : Course works held e seen) (state : FrameState) :
      Course works held (e.frame state).1 seen
  | resize {e : Executor β} {seen : List Graph} (h : Course works held e seen)
      (width height : Int) :
      Course works held (e.resize width height).1 seen

/-- The slots of the running graph. -/
def slots (e : Executor β) : List String := (e.current.map (·.slots)).getD []

/-- What is remembered is what the backend holds: the slots of the running graph and the
buffers of the surfaces of all graphs so far. -/
structure Inventory (works : β → Prop) (held : β → Table TextureSpec) (e : Executor β)
    (seen : List Graph) :
    Prop where
  working : works e.backend
  sized : held e.backend = e.textures.map fun _ spec => spec.sized e.width e.height
  live : e.disposed = false
  tidied : e.Tidied
  surfaces : ∀ id, e.surfaces.contains id = true ↔ ∃ g ∈ seen, id ∈ g.surfaces
  textures : ∀ t, e.textures.contains t = true ↔
    t ∈ e.slots ∨ ∃ id, e.surfaces.contains id = true ∧ t ∈ BufferPair.buffersOf id

namespace Inventory

theorem contains_held (h : Inventory works held e seen) (t : String) :
    (held e.backend).contains t = e.textures.contains t := by
  rw [h.sized, Table.contains_map]

theorem tracked (h : Inventory works held e seen) : e.Tracked := by
  intro t ht
  rcases (h.textures t).1 ht with hslot | ⟨id, hid, hbuffer⟩
  · unfold slots at hslot
    cases hcurrent : e.current with
    | none => simp [hcurrent] at hslot
    | some g =>
        rw [hcurrent, Option.map_some, Option.getD_some, (h.tidied.current g hcurrent).slots]
          at hslot
        obtain ⟨i, hi⟩ := List.mem_iff_getElem?.1 hslot
        exact .inl ⟨i, slotIds_get? hi⟩
  · refine .inr ⟨id, hid, ?_⟩
    unfold BufferPair.buffersOf at hbuffer
    split at hbuffer
    · exact .inl (List.mem_singleton.1 hbuffer)
    · simpa using hbuffer

/-- A change of the backend and of what the renderer knows of programs and sizes. -/
theorem of_same (h : Inventory works held e seen) (hworking : works e'.backend)
    (hsized : held e'.backend = e'.textures.map fun _ spec => spec.sized e'.width e'.height)
    (hlive : e'.disposed = e.disposed) (htidied : e'.Tidied) (htextures : e'.textures = e.textures)
    (hslots : e'.slots = e.slots)
    (hsurfaces : ∀ id, e'.surfaces.contains id = e.surfaces.contains id) :
    Inventory works held e' seen where
  working := hworking
  sized := hsized
  live := hlive.trans h.live
  tidied := htidied
  surfaces id := by rw [hsurfaces, h.surfaces]
  textures t := by
    rw [htextures, h.textures, hslots]
    simp only [hsurfaces]

/-! ## loading -/

/-- A load makes textures that the backend does not hold. -/
theorem fresh (h : Inventory works held e seen) {t : String × TextureSpec}
    (ht : t ∈ e.loadTextures g alloc) :
    (held e.backend).contains t.1 = false := by
  rw [h.contains_held, Table.contains, h.tracked.loadTextures_fresh ht]
  rfl

/-- The surfaces after a load. -/
theorem contains_newSurfaces (e : Executor β) (g : Graph) (id : String) :
    ((e.newSurfaces g).foldl (fun t (b : BufferPair) => t.insert b.id b) e.surfaces).contains
      id = true ↔
      e.surfaces.contains id = true ∨ id ∈ g.surfaces := by
  rw [Table.contains, get?_newSurfaces, Table.contains]
  cases e.surfaces.get? id with
  | some b => simp
  | none => by_cases hid : id ∈ g.surfaces <;> simp [hid]

/-- The textures of a load, seen from the slots and the surfaces there are afterwards. -/
theorem mem_loaded (h : Inventory works held e seen) (t : String)
    (ht : t ∈ slotIds (alloc.getD g.allocate) ∨
      ∃ id, (e.surfaces.contains id = true ∨ id ∈ g.surfaces) ∧ t ∈ BufferPair.buffersOf id) :
    e.textures.contains t = true ∨ t ∈ (e.loadTextures g alloc).map (·.1) := by
  rw [loadTextures_ids, List.mem_append]
  cases hold : e.textures.contains t with
  | true => exact .inl rfl
  | false =>
      refine .inr ?_
      rcases ht with hslot | ⟨id, hid, hbuffer⟩
      · exact .inl (List.mem_filter.2 ⟨hslot, by simp [hold]⟩)
      · -- a buffer of a surface that was there is remembered, so this one is new
        have hnew : e.surfaces.contains id = false := by
          cases hc : e.surfaces.contains id with
          | false => rfl
          | true => exact absurd ((h.textures t).2 (.inr ⟨id, hc, hbuffer⟩)) (by simp [hold])
        have hmem : id ∈ g.surfaces := hid.resolve_left (by simp [hnew])
        refine .inr (List.mem_flatMap.2 ⟨.ofSurface id (g.textures.getD id .surface), ?_, ?_⟩)
        · exact List.mem_map.2 ⟨id, List.mem_filter.2 ⟨hmem, by simp [hnew]⟩, rfl⟩
        · exact (BufferPair.named_ofSurface id _).mem_buffers_iff.2 hbuffer

variable [Backend β]

/-- Slots that are not kept are given back, and no buffer of a surface is. -/
theorem release (hb : Unfailing works held) (hworks : works e.backend)
    (hsized : held e.backend = e.textures.map fun _ spec => spec.sized e.width e.height)
    (keep : List String) :
    ∃ b textures, e.releaseSlots keep = { e with backend := b, textures } ∧ works b ∧
      held b = (textures.map fun _ spec => spec.sized e.width e.height) ∧
      ∀ t, textures.contains t = true ↔
        e.textures.contains t = true ∧ (t ∈ keep ∨ ∃ s ∈ e.surfaces.values, t ∈ s.buffers) := by
  obtain ⟨b, hdiscard, hworks', hheld⟩ := discard_works (e := e) hb hworks
    (e.textures.nodup_keys.filter
      (!(keep ++ e.surfaces.values.flatMap BufferPair.buffers).contains ·))
    fun t ht =>
      by rw [hsized, Table.contains_map]; exact Table.mem_keys_iff.1 (List.mem_filter.1 ht).1
  refine ⟨b, _, hdiscard, hworks', by rw [hheld, hsized, Table.map_foldl_erase], fun t => ?_⟩
  rw [Table.contains_foldl_erase, List.mem_filter, Table.mem_keys_iff]
  simp only [List.contains_eq_mem, Bool.not_eq_true', decide_eq_false_iff_not, List.mem_append,
    List.mem_flatMap]
  refine and_congr_right fun ht => ?_
  rw [not_and, not_not]
  exact ⟨fun hlive => hlive ht, fun hlive _ => hlive⟩

/-- A graph whose conditions can be read is loaded.  Slots that are not its own are given back. -/
theorem load (hb : Unfailing works held) (h : Inventory works held e seen)
    (alloc : Option Graph.Allocation) {passes : List LoadedPass}
    (hread : g.passes.mapM LoadedPass.read = .ok passes) :
    (e.load g alloc).2 = none ∧ Inventory works held (e.load g alloc).1 (seen ++ [g]) ∧
      (e.load g alloc).1.slots = slotIds (alloc.getD g.allocate) := by
  have hnew : ∀ t ∈ e.loadTextures g alloc, (held e.backend).contains t.1 = false :=
    fun t ht => h.fresh ht
  obtain ⟨b, programs, hworks, hheld, hload⟩ := load_works hb h.working h.live hread hnew
  have htidied := load_tidied h.tidied g alloc
  -- the renderer with the new graph, before slots are given back
  generalize he₁ : ({ e with
    backend := b
    programs
    textures := (e.loadTextures g alloc).foldl (fun s t => s.insert t.1 t.2) e.textures
    surfaces := (e.newSurfaces g).foldl (fun t (b : BufferPair) => t.insert b.id b) e.surfaces
    current := some { graph := g, alloc := alloc.getD g.allocate, passes,
                      slots := slotIds (alloc.getD g.allocate) } } : Executor β) = e₁ at hload
  have hsized : held e₁.backend = e₁.textures.map fun _ spec => spec.sized e₁.width e₁.height := by
    rw [← he₁]
    show held b = Table.map (List.foldl _ _ _) _
    rw [hheld, h.sized, Table.map_foldl_insert]
  obtain ⟨b', textures, hrelease, hworks', hsized', htextures⟩ :=
    release hb (by rwa [← he₁]) hsized (slotIds (alloc.getD g.allocate))
  rw [hrelease] at hload
  rw [hload] at htidied ⊢
  have hsurfaces : ∀ id, e₁.surfaces.contains id = true ↔ e.surfaces.contains id = true ∨
      id ∈ g.surfaces := by
    rw [← he₁]
    exact contains_newSurfaces e g
  have hmade : ∀ t, e₁.textures.contains t = true ↔
      e.textures.contains t = true ∨ t ∈ (e.loadTextures g alloc).map (·.1) := by
    rw [← he₁]
    exact Table.contains_foldl_insert _ _
  have hbuffers : ∀ t, (∃ s ∈ e₁.surfaces.values, t ∈ s.buffers) ↔
      ∃ id, e₁.surfaces.contains id = true ∧ t ∈ BufferPair.buffersOf id :=
        htidied.surfaces.exists_buffers_iff
  have hslots : e₁.slots = slotIds (alloc.getD g.allocate) := by rw [← he₁]; rfl
  refine ⟨rfl, ⟨hworks', hsized', ?_, htidied, fun id => ?_, fun t => ?_⟩, hslots⟩
  · rw [← he₁]
    exact h.live
  · show e₁.surfaces.contains id = true ↔ _
    rw [hsurfaces, h.surfaces]
    simp [or_and_right, exists_or]
  · show textures.contains t = true ↔ t ∈ e₁.slots ∨ ∃ id, e₁.surfaces.contains id = true ∧
      t ∈ BufferPair.buffersOf id
    rw [htextures, hmade, hbuffers, hslots]
    refine and_iff_right_of_imp fun hlive => h.mem_loaded t ?_
    simpa only [hsurfaces] using hlive

/-- A load that fails leaves the textures alone. -/
theorem load_fails (hb : Unfailing works held) (h : Inventory works held e seen)
    (alloc : Option Graph.Allocation) {err : RenderError}
    (hread : g.passes.mapM LoadedPass.read = .error err) :
    (e.load g alloc).2 = some err ∧ Inventory works held (e.load g alloc).1 seen ∧
      held (e.load g alloc).1.backend = held e.backend := by
  obtain ⟨b, programs, hworks, hheld, hload⟩ := load_unread hb h.working h.live alloc hread
  have htidied := load_tidied h.tidied g alloc
  rw [hload] at htidied ⊢
  exact ⟨rfl, h.of_same hworks (hheld.trans h.sized) rfl htidied rfl rfl fun _ => rfl, hheld⟩

/-! ## the other calls -/

/-- What a frame leaves of a renderer and its backend. -/
structure Undrawn (works : β → Prop) (held : β → Table TextureSpec) (e e' : Executor β) : Prop where
  textures : e'.textures = e.textures
  width : e'.width = e.width
  height : e'.height = e.height
  current : e'.current = e.current
  live : e'.disposed = e.disposed
  backend : works e.backend → works e'.backend ∧ held e'.backend = held e.backend

theorem undrawn_carried (hb : Unfailing works held) : Carried (Undrawn works held) where
  refl _ := ⟨rfl, rfl, rfl, rfl, rfl, fun h => ⟨h, rfl⟩⟩
  trans h h' := ⟨h'.textures.trans h.textures, h'.width.trans h.width, h'.height.trans h.height,
    h'.current.trans h.current, h'.live.trans h.live, fun hworks =>
      have hfirst := h.backend hworks
      have hsecond := h'.backend hfirst.1
      ⟨hsecond.1, hsecond.2.trans hfirst.2⟩⟩
  submit e c hc :=
    ⟨rfl, rfl, rfl, rfl, rfl, fun hworks => hb.spares hworks (by cases c <;> trivial)⟩
  surfaces _ _ _ := ⟨rfl, rfl, rfl, rfl, rfl, fun h => ⟨h, rfl⟩⟩
  frames _ _ := ⟨rfl, rfl, rfl, rfl, rfl, fun h => ⟨h, rfl⟩⟩

theorem frame (hb : Unfailing works held) (h : Inventory works held e seen) (state : FrameState) :
    Inventory works held (e.frame state).1 seen := by
  have hundrawn := (undrawn_carried hb).frame e state
  obtain ⟨hworks, hheld⟩ := hundrawn.backend h.working
  refine h.of_same hworks ?_ hundrawn.live (frame_tidied h.tidied state) hundrawn.textures ?_
    (frame_reworked h.tidied state).contains
  · rw [hheld, h.sized, hundrawn.textures, hundrawn.width, hundrawn.height]
  · rw [slots, hundrawn.current, slots]

/-- A change of the size gets through, and every texture has its new size. -/
theorem resize (hb : Unfailing works held) (h : Inventory works held e seen) (width height : Int) :
    (e.resize width height).2 = none ∧ (e.resize width height).1.width = width ∧
      (e.resize width height).1.height = height ∧
      Inventory works held (e.resize width height).1 seen := by
  have hall : ∀ t ∈ e.textures.entries.filter (·.2.follows),
      (held e.backend).contains t.1 = true := by
    intro t ht
    rw [h.contains_held]
    exact Table.contains_iff.2 ⟨t.2, Table.mem_entries_iff.1 (List.mem_filter.1 ht).1⟩
  obtain ⟨b, hresize, hworks, hheld⟩ := resize_works hb h.working h.live width height hall
  have htidied := resize_tidied h.tidied width height
  rw [hresize] at htidied ⊢
  refine ⟨rfl, rfl, rfl, h.of_same hworks ?_ rfl htidied rfl rfl fun _ => rfl⟩
  show held b = e.textures.map fun _ spec => spec.sized width height
  refine Table.ext_get? fun id => ?_
  have hnew : held b = ((e.textures.filter fun _ spec => spec.follows).map fun _ spec =>
      spec.sized width height).entries.foldl (fun s t => s.insert t.1 t.2) (held e.backend) := by
    rw [hheld, Table.map, List.foldl_map]
    rfl
  rw [hnew, Table.get?_foldl_insert_sorted (Table.sorted _), h.sized, ← Table.get?, Table.get?_map,
    Table.get?_filter, Table.get?_map, Table.get?_map]
  cases e.textures.get? id with
  | none => rfl
  | some spec =>
      cases hfollows : spec.follows with
      | true => simp [Option.filter_some, hfollows]
      | false =>
          simp [Option.filter_some, hfollows,
            TextureSpec.sized_of_fixed hfollows e.width e.height width height]

end Inventory

variable [Backend β]

/-- Every renderer on the way has its inventory. -/
theorem Course.inventory (hb : Unfailing works held) (h : Course works held e seen) :
    Inventory works held e seen := by
  induction h with
  | @start b b' width height e hworks hempty h =>
      obtain ⟨hworks', hheld⟩ := start_works hb hworks h
      obtain ⟨_, _, rfl⟩ := start_fresh h
      refine ⟨hworks', hheld.trans hempty, rfl, ⟨fun id b hb => by simp at hb, by simp⟩,
        by simp, ?_⟩
      simp [slots]
  | @load e seen h g alloc ih =>
      cases hread : g.passes.mapM LoadedPass.read with
      | ok passes =>
          obtain ⟨hnone, hloaded, -⟩ := ih.load hb alloc hread
          rw [hnone]
          exact hloaded
      | error err =>
          obtain ⟨hsome, hfailed, -⟩ := ih.load_fails hb alloc hread
          rw [hsome]
          exact hfailed
  | frame h state ih => exact ih.frame hb state
  | resize h width height ih => exact (ih.resize hb width height).2.2.2

end Executor

open Executor in
/-- On a backend that never fails, the textures of the backend are those the renderer
remembers, in the size of what it remembers resolved against the viewport, after every call.
After a load that succeeds they are the slots of the new allocation and the buffers of all
surfaces that were loaded so far, and no others.  Loads fail only for conditions that cannot
be read, and leave the textures alone then; changes of the size do not fail. -/
theorem no_leak_no_stale_size {β : Type} [Backend β] {works : β → Prop}
    {held : β → Table TextureSpec} (hb : Unfailing works held) {e : Executor β} {seen : List Graph}
    (h : Executor.Course works held e seen) :
    held e.backend = (e.textures.map fun _ spec => spec.sized e.width e.height) ∧
      (∀ g alloc e', e.load g alloc = (e', none) → ∀ t, (held e'.backend).contains t = true ↔
        t ∈ slotIds (alloc.getD g.allocate) ∨
          ∃ g' ∈ seen ++ [g], ∃ id ∈ g'.surfaces, t ∈ BufferPair.buffersOf id) ∧
      (∀ g alloc, (e.load g alloc).2 = none ↔ ∃ passes,
        g.passes.mapM LoadedPass.read = .ok passes) ∧
      (∀ g alloc e' err, e.load g alloc = (e', some err) → held e'.backend = held e.backend) ∧
      ∀ width height, (e.resize width height).2 = none ∧ (e.resize width height).1.width = width ∧
        (e.resize width height).1.height = height := by
  have hinventory := h.inventory hb
  refine ⟨hinventory.sized, fun g alloc e' hload t => ?_, fun g alloc => ?_,
    fun g alloc e' err hload => ?_, fun width height => ?_⟩
  · cases hread : g.passes.mapM LoadedPass.read with
    | error err =>
        have hfails := (hinventory.load_fails hb alloc hread).1
        simp [hload] at hfails
    | ok passes =>
        obtain ⟨-, hloaded, hslots⟩ := hinventory.load hb alloc hread
        rw [hload] at hloaded hslots
        rw [hloaded.contains_held, hloaded.textures, hslots]
        refine or_congr_right ?_
        simp only [hloaded.surfaces]
        constructor
        · rintro ⟨id, ⟨g', hg', hid⟩, ht⟩
          exact ⟨g', hg', id, hid, ht⟩
        · rintro ⟨g', hg', id, hid, ht⟩
          exact ⟨id, ⟨g', hg', hid⟩, ht⟩
  · cases hread : g.passes.mapM LoadedPass.read with
    | error err => simp [(hinventory.load_fails hb alloc hread).1]
    | ok passes => simp [(hinventory.load hb alloc hread).1]
  · cases hread : g.passes.mapM LoadedPass.read with
    | error err' =>
        have hkept := (hinventory.load_fails hb alloc hread).2.2
        rwa [hload] at hkept
    | ok passes =>
        have hnone := (hinventory.load hb alloc hread).1
        simp [hload] at hnone
  · obtain ⟨hnone, hwidth, hheight, -⟩ := hinventory.resize hb width height
    exact ⟨hnone, hwidth, hheight⟩

/-- A graph with a texture of a fixed size and a surface of its own. -/
def mist : Graph where
  passes := [{ id := "a", program := "fill", outputs := .ofList [("color", "node_0_out")] },
    { id := "b", program := "fill", inputs := .ofList [("tex", "node_0_out")],
      outputs := .ofList [("color", "global_o1")] }]
  programs := .ofList [("fill", { wgsl := "fn fill() \x7b\x7d" })]
  textures := .ofList [("global_o1", .surface), ("node_0_out", { width := 8, height := 8 })]
  render := "global_o1"

def mistStart : Executor Recorder :=
  { backend := (runList Recorder.submit {} [.init, .resize 64 32]).1, width := 64, height := 32 }

/-- A renderer that drew another graph and got a new size. -/
def mistBefore : Executor Recorder := (((mistStart.load trail none).1.frame {}).1.resize 32 16).1

/-- When the graph is loaded, its slot and its surface join the surfaces of the one before. -/
theorem mist_inventory :
    Unfailing Recorder.Works Recorder.textures ∧
      Executor.Course Recorder.Works Recorder.textures mistBefore [trail] ∧
      (mistBefore.load mist none).2 = none ∧
      (∀ t, (mistBefore.load mist none).1.backend.textures.contains t = true ↔
        t ∈ ["slot_0@rgba8unorm-8x8", "feedback_m#0", "feedback_m#1", "global_o0#0", "global_o0#1",
          "global_o1#0", "global_o1#1"]) ∧
      mistBefore.backend.textures = mistBefore.textures.map fun _ spec => spec.sized 32 16 := by
  have hstart : Executor.start ({} : Recorder) 64 32 = (mistStart.backend, .ok mistStart) := rfl
  have hfirst : (mistStart.load trail none).2.isNone = true := by decide +kernel
  have hloaded : Executor.Course Recorder.Works Recorder.textures (mistStart.load trail none).1
      [trail] := by
    have hbegun : Executor.Course Recorder.Works Recorder.textures mistStart [] :=
      .start ⟨rfl, rfl⟩ rfl hstart
    have hseen := hbegun.load trail none
    rwa [if_pos hfirst] at hseen
  have hcourse : Executor.Course Recorder.Works Recorder.textures mistBefore [trail] := by
    rw [mistBefore]
    exact .resize (.frame hloaded {}) 32 16
  obtain ⟨hsized, hlive, hloads, -, -⟩ := no_leak_no_stale_size Recorder.unfailing hcourse
  have hfacts : (mistBefore.load mist none).2.isNone = true ∧ mistBefore.width = 32 ∧
      mistBefore.height = 16 ∧
      slotIds mist.allocate = ["slot_0@rgba8unorm-8x8"] ∧
        trail.surfaces = ["feedback_m", "global_o0"] ∧
      mist.surfaces = ["global_o1"] := by
    decide +kernel
  have hbuffers : BufferPair.buffersOf "feedback_m" = ["feedback_m#0", "feedback_m#1"] ∧
      BufferPair.buffersOf "global_o0" = ["global_o0#0", "global_o0#1"] ∧
      BufferPair.buffersOf "global_o1" = ["global_o1#0", "global_o1#1"] := by
    decide +kernel
  obtain ⟨hnone, hwidth, hheight, hslots, htrail, hmist⟩ := hfacts
  have hload : mistBefore.load mist none = ((mistBefore.load mist none).1, none) :=
    Prod.snd_eq_iff.1 (Option.isNone_iff_eq_none.1 hnone)
  rw [hwidth, hheight] at hsized
  refine ⟨Recorder.unfailing, hcourse, Option.isNone_iff_eq_none.1 hnone, fun t => ?_, hsized⟩
  rw [hlive mist none _ hload t, Option.getD_none, hslots]
  simp [htrail, hmist, hbuffers, or_assoc]

end EffectChain
