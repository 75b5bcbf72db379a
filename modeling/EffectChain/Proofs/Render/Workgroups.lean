import EffectChain.Proofs.Render.SelfSampling
import EffectChain.Proofs.Render.Strays
import EffectChain.Proofs.Render.SurfaceSpecs

/-!
# EffectChain.Proofs.Render.Workgroups

Whether the workgroups of a dispatch cover the texture that it writes.

Two things tell the size of the first output of a pass.  The number of workgroups goes by what
the running graph declares, in the size of the frame.  The texture that is bound goes by what
its surface or its slot was made as, in the size of the viewport.  A frame may come with a
size of its own, a surface stays as the first graph declared it, and a slot is shared by its
key alone, so the two need not agree.

* `spans_workgroups_iff` — the arithmetic of one dimension, in which a sum may overflow;
* `Frame.covers_iff` — when the workgroups that a frame tells cover a size;
* `Executor.bound_texture` — what the texture was made as that a pass is bound to;
* `workgroups_cover_iff` — when the workgroups of a dispatch cover its first output.
-/

namespace EffectChain

/-! ## one dimension -/

/-- So many workgroups of the size reach the end of the length, and one less does not. -/
def Spans (count size length : Int) : Prop := (count - 1) * size < length ∧ length ≤ count * size

/-- How many workgroups of the size a length takes. -/
def blocks (length size : Int) : Int := (length + size - 1) / size

section dimension

variable {count size length length' : Int}

theorem spans_iff (hsize : 0 < size) : Spans count size length ↔ count = blocks length size := by
  have hsub : (count - 1) * size = count * size - size := by rw [Int.sub_mul, Int.one_mul]
  have hcount : count = blocks length size ↔ count * size ≤ length + size - 1 ∧
      length + size - 1 < count * size + size := by
    rw [blocks, eq_comm, Int.ediv_eq_iff_of_pos hsize]
  rw [Spans, hcount, hsub]
  omega

theorem Number.fits64_iff {i : Int} :
    Number.fits64 i = true ↔ -0x8000000000000000 ≤ i ∧ i < 0x8000000000000000 := by
  simp [Number.fits64]

theorem Number.wrap64_of_fits64 {i : Int} (h : Number.fits64 i = true) : Number.wrap64 i = i := by
  obtain ⟨hlow, hhigh⟩ := Number.fits64_iff.1 h
  exact Int.bmod_eq_of_le_mul_two (by omega) (by omega)

/-- As long as the sum does not overflow, the number is the one that the length takes. -/
theorem workgroups_eq_blocks (hlength : 0 < length) (hsize : 0 < size)
    (hfits : Number.fits64 (length + size - 1) = true) :
    Frame.workgroups length size = blocks length size := by
  rw [Frame.workgroups, Number.wrap64_of_fits64 hfits, blocks,
    Int.tdiv_eq_ediv_of_nonneg (by omega)]

/-- A sum that overflows is negative, and no workgroup is left. -/
theorem workgroups_nonpos (hsize : 0 < size) (hlengthFits : Number.fits64 length = true)
    (hsizeFits : Number.fits64 size = true) (hover : Number.fits64 (length + size - 1) ≠ true)
    (hlength : 0 < length) :
    Frame.workgroups length size ≤ 0 := by
  have hlong := (Number.fits64_iff.1 hlengthFits).2
  have hwide := (Number.fits64_iff.1 hsizeFits).2
  have hsum : 0x8000000000000000 ≤ length + size - 1 := by
    by_contra hlt
    exact hover (Number.fits64_iff.2 ⟨by omega, by omega⟩)
  have hwrapped : Number.wrap64 (length + size - 1) =
      -(0x10000000000000000 - (length + size - 1)) := by
    have hround := Int.sub_bmod_right (length + size - 1) 0x10000000000000000
    rw [Int.bmod_eq_of_le_mul_two (by omega) (by omega)] at hround
    rw [Number.wrap64, ← hround, Int.neg_sub]
    rfl
  have hrest : 0 ≤ (0x10000000000000000 - (length + size - 1)).tdiv size :=
    Int.tdiv_nonneg (by omega) hsize.le
  rw [Frame.workgroups, hwrapped, Int.neg_tdiv]
  omega

/-- The workgroups that are told for one length span another if and only if the sum does not
overflow and both lengths take as many. -/
theorem spans_workgroups_iff (hlength : 0 < length) (hsize : 0 < size)
    (hlengthFits : Number.fits64 length = true) (hsizeFits : Number.fits64 size = true)
    (hother : 0 < length') :
    Spans (Frame.workgroups length size) size length' ↔
      Number.fits64 (length + size - 1) = true ∧ blocks length size = blocks length' size := by
  by_cases hfits : Number.fits64 (length + size - 1) = true
  · rw [workgroups_eq_blocks hlength hsize hfits, spans_iff hsize]
    exact (and_iff_right hfits).symm
  · refine iff_of_false ?_ fun h => hfits h.1
    rintro ⟨-, hreach⟩
    have hnone := Int.mul_le_mul_of_nonneg_right
      (workgroups_nonpos hsize hlengthFits hsizeFits hfits hlength) hsize.le
    omega

end dimension

/-! ## the dimensions of a dispatch -/

/-- The workgroups span a texture in each dimension. -/
def Covers (counts : Int × Int × Int) (sizes lengths : List Int) : Prop :=
  ∀ count size length, (count, size, length) ∈ [counts.1, counts.2.1, counts.2.2].zip
    (sizes.zip lengths) →
    Spans count size length

/-- In each dimension both textures take as many workgroups, and this can be told in 64 bits for
the first. -/
def SameBlocks (sizes lengths lengths' : List Int) : Prop :=
  ∀ size length length', (size, length, length') ∈ sizes.zip (lengths.zip lengths') →
    Number.fits64 (length + size - 1) = true ∧ blocks length size = blocks length' size

/-- The width, the height and the depth of a texture; only a volume has more than one layer. -/
def TextureSpec.extent (s : TextureSpec) : List Int :=
  [s.width, s.height, if s.volume then s.depth else 1]

/-- The numbers of a graph are integers of 64 bits. -/
structure Graph.Fits64 (g : Graph) : Prop where
  dimensions : ∀ p ∈ g.passes, p.workgroup.length = 3
  workgroups : ∀ p ∈ g.passes, ∀ size ∈ p.workgroup, Number.fits64 size = true
  textures : ∀ id spec, g.textures.get? id = some spec →
    Number.fits64 spec.width = true ∧ Number.fits64 spec.height = true ∧
      Number.fits64 spec.depth = true

/-- So are the sizes of its textures in a viewport. -/
theorem Graph.Fits64.extent {g : Graph} (h : g.Fits64) (id : String) {width height : Int}
    (hwidth : Number.fits64 width = true) (hheight : Number.fits64 height = true) :
    ∀ length ∈ ((g.specOf id).sized width height).extent, Number.fits64 length = true := by
  have hspec : Number.fits64 (g.specOf id).width = true ∧
      Number.fits64 (g.specOf id).height = true ∧
      Number.fits64 (g.specOf id).depth = true := by
    cases hget : g.textures.get? id with
    | none => simp [specOf, Table.getD, hget, TextureSpec.surface, Number.fits64_iff]
    | some spec =>
        rw [specOf, Table.getD_of_get? _ hget]
        exact h.textures id spec hget
  obtain ⟨hw, hh, hd⟩ := hspec
  have hone : Number.fits64 1 = true := by decide
  have hsizedWidth : Number.fits64 ((g.specOf id).sized width height).width = true := by
    unfold TextureSpec.sized
    dsimp only
    split <;> assumption
  have hsizedHeight : Number.fits64 ((g.specOf id).sized width height).height = true := by
    unfold TextureSpec.sized
    dsimp only
    split <;> assumption
  have hsizedDepth : Number.fits64 ((g.specOf id).sized width height).depth = true := by
    unfold TextureSpec.sized
    dsimp only
    split <;> assumption
  intro length hlength
  simp only [TextureSpec.extent, List.mem_cons, List.not_mem_nil, or_false] at hlength
  rcases hlength with rfl | rfl | rfl
  · exact hsizedWidth
  · exact hsizedHeight
  · split <;> assumption

namespace Frame

variable {β : Type} {f : Frame β} {p : Graph.Pass} {id : String} {rest : List String}
    {counts : Int × Int × Int}

/-- The workgroups of a pass are told for its first output. -/
theorem outputSize_eq (f : Frame β) (id : String) :
    f.outputSize id = ((f.current.graph.specOf id).sized f.state.width f.state.height).extent := rfl

/-- Workgroups are told for a pass with an output, when neither they nor the output are empty. -/
theorem groups_ok (h : f.groups p = .ok counts) {x y z a b c : Int}
    (hsizes : p.workgroup = [x, y, z]) (hnames : Graph.sortedNames p.outputs.values = id :: rest)
    (hlengths : f.outputSize id = [a, b, c]) :
    (0 < a ∧ 0 < x) ∧ (0 < b ∧ 0 < y) ∧ (0 < c ∧ 0 < z) ∧
      counts = (workgroups a x, workgroups b y, workgroups c z) := by
  unfold groups at h
  simp only [hnames, hlengths, hsizes, List.zip_cons_cons, List.zip_nil_right, List.map_cons,
    List.map_nil, List.any_cons, List.any_nil, Bool.or_false, Bool.or_eq_true, decide_eq_true_eq]
      at h
  split at h
  · cases h
  · obtain rfl := Except.ok.inj h
    exact ⟨by omega, by omega, by omega, rfl⟩

/-- A pass whose workgroups are told has an output. -/
theorem exists_of_groups_ok (h : f.groups p = .ok counts) :
    ∃ id rest, Graph.sortedNames p.outputs.values = id :: rest := by
  cases hnames : Graph.sortedNames p.outputs.values with
  | nil => simp [groups, hnames] at h
  | cons id rest => exact ⟨id, rest, rfl⟩

/-- The workgroups of a pass cover a texture if and only if it takes as many as the first output
in the size of the frame. -/
theorem covers_iff (h : f.groups p = .ok counts) (hdimensions : p.workgroup.length = 3)
    (hsizes : ∀ size ∈ p.workgroup, Number.fits64 size = true)
    (hnames : Graph.sortedNames p.outputs.values = id :: rest)
    (hlengths : ∀ length ∈ f.outputSize id, Number.fits64 length = true)
    {s : TextureSpec} (hpos : ∀ length ∈ s.extent, 0 < length) :
    Covers counts p.workgroup s.extent ↔ SameBlocks p.workgroup (f.outputSize id) s.extent := by
  obtain ⟨x, y, z, hworkgroup⟩ := List.length_eq_three.1 hdimensions
  obtain ⟨a, b, c, hsize⟩ : ∃ a b c, f.outputSize id = [a, b, c] := ⟨_, _, _, rfl⟩
  obtain ⟨a', b', c', hextent⟩ : ∃ a b c, s.extent = [a, b, c] := ⟨_, _, _, rfl⟩
  obtain ⟨⟨ha, hx⟩, ⟨hb, hy⟩, ⟨hc, hz⟩, rfl⟩ := groups_ok h hworkgroup hnames hsize
  rw [hworkgroup] at hsizes ⊢
  rw [hsize] at hlengths ⊢
  rw [hextent] at hpos ⊢
  simp only [List.forall_mem_cons, List.not_mem_nil, false_imp_iff, implies_true, and_true]
    at hsizes hlengths hpos
  have hfirst := spans_workgroups_iff ha hx hlengths.1 hsizes.1 hpos.1
  have hsecond := spans_workgroups_iff hb hy hlengths.2.1 hsizes.2.1 hpos.2.1
  have hthird := spans_workgroups_iff hc hz hlengths.2.2 hsizes.2.2 hpos.2.2
  simp only [Covers, SameBlocks, List.zip_cons_cons, List.zip_nil_right, List.mem_cons,
    List.not_mem_nil, or_false, Prod.mk.injEq]
  constructor
  · rintro hcovers size length length' (⟨rfl, rfl, rfl⟩ | ⟨rfl, rfl, rfl⟩ | ⟨rfl, rfl, rfl⟩)
    · exact hfirst.1 (hcovers _ _ _ (.inl ⟨rfl, rfl, rfl⟩))
    · exact hsecond.1 (hcovers _ _ _ (.inr (.inl ⟨rfl, rfl, rfl⟩)))
    · exact hthird.1 (hcovers _ _ _ (.inr (.inr ⟨rfl, rfl, rfl⟩)))
  · rintro hsame count size length (⟨rfl, rfl, rfl⟩ | ⟨rfl, rfl, rfl⟩ | ⟨rfl, rfl, rfl⟩)
    · exact hfirst.2 (hsame _ _ _ (.inl ⟨rfl, rfl, rfl⟩))
    · exact hsecond.2 (hsame _ _ _ (.inr (.inl ⟨rfl, rfl, rfl⟩)))
    · exact hthird.2 (hsame _ _ _ (.inr (.inr ⟨rfl, rfl, rfl⟩)))

end Frame

/-! ## the textures that a pass is bound to -/

namespace Executor

variable {β : Type} {works : β → Prop} {held : β → Table TextureSpec} {e : Executor β}
    {seen : List Graph}

/-- What the texture was made as that stands for a texture of the graph: a surface as the first
graph with it declares it, and a slot of the graph's own allocation under the key of what the
graph declares. -/
structure MadeAs (e : Executor β) (seen : List Graph) (g : LoadedGraph) (id : String)
    (made : TextureSpec) : Prop where
  surface : e.surfaces.contains id = true → firstSpec seen id = some made
  slot : e.surfaces.contains id = false → g.alloc = g.graph.allocate →
    made.key = (g.graph.specOf id).key

theorem Course.reachable [Backend β] (h : Course works held e seen) : Reachable e := by
  induction h with
  | start _ _ h => exact .start h
  | load _ g alloc ih => exact ih.load g alloc
  | frame _ state ih => exact ih.frame state
  | resize _ width height ih => exact ih.resize width height

/-- What a frame binds an output to was made by the renderer, in the size that goes with the
viewport. -/
theorem bound_texture [Backend β] (hb : Unfailing works held) (h : Course works held e seen)
    {g : LoadedGraph} (hcurrent : e.current = some g) {f : Frame β} (hf : f.current = g)
    (hworked : Reworked e.surfaces f.exec.surfaces) {id t : String} (ht : f.Target id t) :
    ∃ made, (held e.backend).get? t = some (made.sized e.width e.height) ∧
    e.MadeAs seen g id made := by
  have hinventory := h.inventory hb
  have hheld : ∀ {made}, e.textures.get? t = some made →
      (held e.backend).get? t = some (made.sized e.width e.height) := by
    intro made hmade
    rw [hinventory.sized, Table.get?_map, hmade]
    rfl
  unfold Frame.Target at ht
  cases hs : f.exec.surfaces.get? id with
  | some b' =>
      rw [hs] at ht
      have hcontains : e.surfaces.contains id = true := by
        rw [← hworked.contains]
        exact Table.contains_iff.2 ⟨b', hs⟩
      obtain ⟨k, hget, hk⟩ := hworked
      rw [hget, Option.map_eq_some_iff] at hs
      obtain ⟨b, hbefore, rfl⟩ := hs
      have hbuffer : t ∈ BufferPair.buffersOf id := by
        rw [← (hinventory.tidied.surfaces id b hbefore).2.mem_buffers_iff]
        exact (hk id b).buffer ht
      obtain ⟨first, hfirst, hkept⟩ := h.dated hb id hcontains
      exact ⟨first, hheld (hkept t hbuffer), fun _ => hfirst,
        fun hnot => by simp [hcontains] at hnot⟩
  | none =>
      rw [hs] at ht
      have hnone : e.surfaces.contains id = false := by
        rw [← hworked.contains]
        simp [Table.contains, hs]
      obtain ⟨k, hk, hslot⟩ := Option.bind_eq_some_iff.1 ht
      rw [hf] at hk hslot
      have hmem : t ∈ e.slots := by
        rw [slots, hcurrent]
        exact List.mem_of_getElem? hslot
      obtain ⟨made, hmade⟩ := Table.contains_iff.1 ((hinventory.textures t).2 (.inl hmem))
      refine ⟨made, hheld hmade, fun hyes => by simp [hnone] at hyes, fun _ hown => ?_⟩
      rw [hown] at hk
      obtain ⟨spec, hspec, hkey⟩ := Graph.stored_of_slot g.graph hk
      have hname : t = slotId k spec := by
        rw [(hinventory.tidied.current g hcurrent).slots, hown] at hslot
        simpa [slotIds, hspec, eq_comm] using hslot
      rw [hname] at hmade
      exact ((labelled_of_reachable h.reachable).key_of_slot hmade).trans hkey

end Executor

open Executor in
/-- The workgroups of a dispatch cover its first output if and only if this takes, in each
dimension, as many workgroups in the size that goes with the viewport and as it was made, as in the
size of the frame and as the running graph declares it, and the latter number can be told in 64
bits.  The output was made as the first graph with the surface declares it, or under the key of what
the running graph declares.  So it is for every dispatch of every frame, after any loads, frames and
changes of the size on a backend that never fails. -/
theorem workgroups_cover_iff {β : Type} [Backend β] {works : β → Prop}
    {held : β → Table TextureSpec} (hb : Unfailing works held) {e : Executor (Scribe β)}
    {seen : List Graph}
    (h : Executor.Course (fun b : Scribe β => works b.inner) (fun b => held b.inner) e seen)
    {g : LoadedGraph} (hcurrent : e.current = some g) (hg : g.graph.Fits64) (state : FrameState)
    (hwidth : Number.fits64 (e.frameState state).width = true)
    (hheight : Number.fits64 (e.frameState state).height = true) :
    ∃ xs, (e.frame state).1.backend.log = e.backend.log ++ xs ∧
      ∀ d s answer, (.executePass d s, answer) ∈ xs → d.kind = .compute →
        ∃ p ∈ g.graph.passes, d.pass = p.id ∧ ∃ id rest, Graph.sortedNames p.outputs.values =
          id :: rest ∧
          ∀ name, p.outputs.get? name = some id → ∃ t made, d.outputs.get? name = some t ∧
            (held e.backend.inner).get? t = some (made.sized e.width e.height) ∧
            e.MadeAs seen g id made ∧
            ((∀ length ∈ (made.sized e.width e.height).extent, 0 < length) →
              (Covers d.groups p.workgroup (made.sized e.width e.height).extent ↔
                SameBlocks p.workgroup
                  ((g.graph.specOf id).sized (e.frameState state).width
                    (e.frameState state).height).extent
                  (made.sized e.width e.height).extent)) := by
  have hinventory := h.inventory hb.scribe
  have hready := hinventory.tidied.current g hcurrent
  refine frame_dispatches (I := fun f => ∃ ws, Drawn e.surfaces ws f) hcurrent hready state ?_ ?_ ?_
  · intro e₁ hbegin
    have hopened := Drawn.opened e₁ g (e.frameState state)
    rw [surfaces_submit hbegin] at hopened
    exact ⟨[], hopened⟩
  · rintro f f' p u n ⟨ws, hdrawn⟩ hd
    exact ⟨_, hdrawn.dispatch hd⟩
  · rintro f p d ⟨ws, hdrawn⟩ hf hs hp hd hcompute
    have hgroups := hd.groups (hd.kind.symm.trans hcompute)
    obtain ⟨id, rest, hnames⟩ := Frame.exists_of_groups_ok hgroups
    refine ⟨p, hp, hd.pass, id, rest, hnames, fun name hname => ?_⟩
    obtain ⟨f₁, hout⟩ := hd.outputs
    obtain ⟨t, htarget, ht⟩ :=
      ((Frame.bindOutputs_target _ f _ _ p.outputs.sorted hout).2.2 name).1 id
      (Table.mem_entries_iff.2 hname)
    obtain ⟨made, hheld, hmade⟩ := bound_texture hb.scribe h hcurrent hf (.drawn hdrawn) htarget
    refine ⟨t, made, ht, hheld, hmade, fun hpos => ?_⟩
    have hdeclared : f.outputSize id =
        ((g.graph.specOf id).sized (e.frameState state).width
            (e.frameState state).height).extent := by
      rw [Frame.outputSize_eq, hf, hs]
    rw [← hdeclared]
    refine Frame.covers_iff hgroups (hg.dimensions p hp) (hg.workgroups p hp) hnames ?_ hpos
    rw [hdeclared]
    exact hg.extent id hwidth hheight

/-- What is dispatched in an exchange. -/
def Exchange.dispatch? : Exchange → Option Dispatch
  | (.executePass d _, _) => some d
  | _ => none

/-- A graph that computes a surface in workgroups of eight by eight. -/
def wash : Graph where
  passes := [{ id := "a", program := "fill", kind := .compute, workgroup := [8, 8, 1],
               outputs := .ofList [("color", "global_o0")] }]
  programs := .ofList [("fill", { wgsl := "fn fill() \x7b\x7d" })]
  textures := .ofList [("global_o0", .surface)]
  render := "global_o0"

/-- A renderer that draws the graph in a viewport of 64 by 32. -/
def washed : Executor (Scribe Recorder) := (scribing.load wash none).1

/-- In a frame that is twice as wide and as high, twice as many workgroups are told in each of
these dimensions as the surface takes. -/
theorem wide_frame_overreaches :
    Executor.Course (fun b : Scribe Recorder => b.inner.Works) (fun b => b.inner.textures) washed
      [wash] ∧
      wash.Fits64 ∧ ∃ xs d s answer,
        (washed.frame { width := 128, height := 64 }).1.backend.log = washed.backend.log ++ xs ∧
        (.executePass d s, answer) ∈ xs ∧ d.kind = .compute ∧ d.groups = (16, 8, 1) ∧
        ∃ t, d.outputs.get? "color" = some t ∧
          washed.backend.inner.textures.get? t = some { width := 64, height := 32, depth := 1 } ∧
          ¬ Covers d.groups [8, 8, 1] [64, 32, 1] := by
  have hstart : Executor.start ({ inner := {} } : Scribe Recorder) 64 32 =
    (scribing.backend, .ok scribing) := rfl
  have hnone : (scribing.load wash none).2.isNone = true := by decide +kernel
  have hcourse : Executor.Course (fun b : Scribe Recorder => b.inner.Works)
      (fun b => b.inner.textures) washed [wash] := by
    have hbegun : Executor.Course (fun b : Scribe Recorder => b.inner.Works)
        (fun b => b.inner.textures) scribing [] :=
      .start ⟨rfl, rfl⟩ rfl hstart
    have hseen := hbegun.load wash none
    rwa [if_pos hnone] at hseen
  have hfits : wash.Fits64 := by
    have htextures : wash.textures.entries = [("global_o0", .surface)] := by decide +kernel
    refine ⟨by decide +kernel, by decide +kernel, fun id spec hspec => ?_⟩
    rw [← Table.mem_entries_iff, htextures, List.mem_singleton, Prod.mk.injEq] at hspec
    rw [hspec.2]
    decide +kernel
  obtain ⟨passes, hcurrent⟩ :=
    Executor.load_current (Prod.snd_eq_iff.1 (Option.isNone_iff_eq_none.1 hnone))
  have hsize : washed.width = 64 ∧ washed.height = 32 ∧ Number.fits64 128 = true ∧
      Number.fits64 64 = true := by
    decide +kernel
  obtain ⟨hwidth, hheight, hframeWidth, hframeHeight⟩ := hsize
  obtain ⟨xs, hlog, hxs⟩ := workgroups_cover_iff Recorder.unfailing hcourse hcurrent hfits
    { width := 128, height := 64 } hframeWidth hframeHeight
  have hshots : hasDispatched xs {} (.ofList [("color", "global_o0#1")]) = true ∧
      ((xs.filterMap Exchange.dispatch?).all fun d => d.kind = .compute && d.groups = (16, 8, 1)) =
          true := by
    obtain rfl : xs = ((washed.frame { width := 128, height := 64 }).1.backend.log).drop
        washed.backend.log.length := by
      rw [hlog, List.drop_left]
    decide +kernel
  obtain ⟨d, s, answer, hmem, -, houtputs⟩ := exists_of_hasDispatched hshots.1
  have hshot := List.all_eq_true.1 hshots.2 d (List.mem_filterMap.2 ⟨_, hmem, rfl⟩)
  simp only [Bool.and_eq_true, decide_eq_true_eq] at hshot
  obtain ⟨p, hp, -, id, rest, hnames, hbound⟩ := hxs d s answer hmem hshot.1
  obtain rfl := List.mem_singleton.1 hp
  have hfirst : Graph.sortedNames (Table.ofList [("color", "global_o0")]).values =
    ["global_o0"] := by decide +kernel
  obtain rfl : "global_o0" = id := by
    rw [hfirst] at hnames
    exact (List.cons.inj hnames).1
  obtain ⟨t, made, ht, hheld, hmade, hcovers⟩ := hbound "color" (by decide +kernel)
  -- the surface is as the graph declares it, and takes half as many workgroups
  have hspecs : washed.surfaces.contains "global_o0" = true ∧ firstSpec [wash] "global_o0" =
      some .surface ∧
      wash.specOf "global_o0" = .surface := by
    decide +kernel
  obtain ⟨hcontains, hmadeFirst, hdeclared⟩ := hspecs
  obtain rfl : TextureSpec.surface = made :=
    Option.some.inj (hmadeFirst.symm.trans (hmade.surface hcontains))
  rw [hwidth, hheight] at hheld hcovers
  refine ⟨hcourse, hfits, xs, d, s, answer, hlog, hmem, hshot.1, hshot.2, t, ht, hheld,
    fun hall => ?_⟩
  have hsame := (hcovers (by decide)).1 hall
  have hblocks := (hsame 8 128 64 ?_).2
  · exact absurd hblocks (by decide)
  · rw [hdeclared]
    decide

end EffectChain
