import EffectChain.Proofs.Catalog.TextureKey
import EffectChain.Proofs.Graph.Expansion
import EffectChain.Proofs.Graph.Optimality
import EffectChain.Proofs.Render.Inventory

/-!
# EffectChain.Proofs.Render.SharedStorage

What the textures that share storage need (`shared_storage`), within a graph and from one
graph to the next.

A texture of an expanded graph was read from a catalog or is one that the expansion gives to
surfaces and outputs (`supplied_expand`).  Such textures agree when they share a slot, but for
the one size that a texture fixes (`Graph.Supplied.sameClass`).

A renderer keeps a slot across loads by its name, which holds the number of the slot and the
key of what it stores (`Labelled`).  So what was kept for a slot has the key of what the slot
needs (`Labelled.key_of_slot`), and agrees with it as far as keys tell.
-/

namespace EffectChain

section supplies

open EffectChain.Graph EffectChain.Graph.Expander

/-- A texture that was read from a catalog, as a texture or as a volume, or that the
expansion gives. -/
inductive TextureSpec.Supplied : TextureSpec → Prop
  | implied {s : TextureSpec} (h : Written.Implied s) : Supplied s
  | texture {s : TextureSpec} {a : Document} (h : CatalogFile.texture? .surface a = some s) :
      Supplied s
  | volume {s : TextureSpec} {a : Document} (h : CatalogFile.texture? .plainVolume a = some s) :
      Supplied s

/-- Volumes have a size of their own: those that declare none have a size by default. -/
theorem TextureSpec.Supplied.anchored {s : TextureSpec} (h : s.Supplied) : s.Anchored := by
  intro hv
  cases h with
  | implied h =>
      cases h with
      | image => cases hv
      | volume => rfl
      | geometry => cases hv
  | texture h =>
      obtain ⟨format, w, h', z, -, -, -, rfl⟩ := exists_of_read h
      cases hv
  | volume h =>
      obtain ⟨format, w, h', z, hw, hh, -, rfl⟩ := exists_of_read h
      have hsize : ∀ {n : Int}, 0 ≤ n → (if n > 0 then n else 64) ≠ 0 := by
        intro n hn
        split <;> omega
      exact Bool.or_eq_false_iff.2 ⟨decide_eq_false (hsize hw), decide_eq_false (hsize hh)⟩

/-- All textures of the graph were supplied. -/
def Graph.Supplied (g : Graph) : Prop := ∀ id s, g.textures.get? id = some s → s.Supplied

/-- All textures that the effect declares were supplied. -/
def Descriptor.Supplied (d : Descriptor) : Prop :=
  ∀ e ∈ d.textures.entries ++ d.volumes.entries, e.2.Supplied

/-- The textures of every declaration of a catalog file were supplied. -/
theorem CatalogFile.supplied_of_decode {text origin : String} {file : CatalogFile}
    (h : decode text origin = .ok file) {d : Descriptor} (hd : d ∈ file.effects) : d.Supplied := by
  obtain ⟨htextures, hvolumes⟩ := texture_of_decode h hd
  intro e he
  rcases List.mem_append.1 he with he | he
  · obtain ⟨a, ha⟩ := htextures e.1 e.2 (Table.mem_entries_iff.1 he)
    exact .texture ha
  · obtain ⟨a, ha⟩ := hvolumes e.1 e.2 (Table.mem_entries_iff.1 he)
    exact .volume ha

/-! ## expansions -/

namespace Graph

/-- A supplied spec keeps the graph supplied. -/
theorem Supplied.addTexture {draft : Draft} (h : draft.graph.Supplied) (id : String)
    {s : TextureSpec} (hs : s.Supplied) : (draft.addTexture id s).graph.Supplied := by
  intro a t ht
  change (draft.graph.textures.insert id s).get? a = some t at ht
  rw [Table.get?_insert] at ht
  split at ht
  · exact Option.some.inj ht ▸ hs
  · exact h a t ht

theorem Supplied.addSurface {draft : Draft} (h : draft.graph.Supplied) (id : String) :
    (draft.addTexture id .surface).graph.Supplied :=
  h.addTexture id (.implied .image)

theorem Supplied.addError {draft : Draft} (h : draft.graph.Supplied) (s : Step) (p : Problem) :
    (draft.addError s p).graph.Supplied := h

theorem Supplied.setFlow {draft : Draft} (h : draft.graph.Supplied) (t : Nat) (f : Flow) :
    (draft.setFlow t f).graph.Supplied := h

variable {x : Expander} {s : Step} {d : Descriptor} {draft : Draft}

/-- Binding inputs keeps the graph supplied. -/
theorem Supplied.bindInputs (h : draft.graph.Supplied) (flow : Flow) (place : Nat)
    (inputs : Table String) :
    (x.bindInputs s d flow place inputs draft).1.graph.Supplied := by
  refine bindInputs_induct place inputs (P := fun _ draft' _ => draft'.graph.Supplied) h ?_ ?_
  · intro _ draft' _ _ _ id fresh _ _ h'
    cases fresh with
    | true => exact h'.addSurface id
    | false => exact h'
  · exact fun _ _ _ _ _ _ _ h' => h'

/-- Binding an output keeps the graph supplied. -/
theorem Supplied.bindOutput {w : Written} (h : w.draft.graph.Supplied) (place : Nat) (last : Bool)
    (attachment name : String) :
    (bindOutput s d place last w attachment name).draft.graph.Supplied := by
  rcases Written.bindOutput_cases s d place last w attachment name with ⟨-, heq⟩ |
    ⟨w', heq, ⟨hsame, -⟩ | ⟨spec, hspec, hadded⟩, -⟩ <;> rw [heq]
  · exact h
  · rw [hsame]
    exact h
  · rw [hadded]
    exact h.addTexture _ (.implied hspec)

/-- A pass keeps the graph supplied. -/
theorem Supplied.pass {w : Written} (h : w.draft.graph.Supplied) (input : Flow)
    (uniforms : Table Value) (place : Nat) (p : EffectChain.Pass) :
    (x.pass s d input uniforms w place p).draft.graph.Supplied := by
  rw [pass_eq]
  exact List.foldlRecOn (motive := fun w : Written => w.draft.graph.Supplied) p.outputs.entries _
    (h.bindInputs input place p.inputs) fun _ hw e _ => hw.bindOutput place _ e.1 e.2

/-- The declarations of a supplied effect keep the graph supplied. -/
theorem Supplied.declare (h : draft.graph.Supplied) (hd : d.Supplied) (x : Expander) (s : Step) :
    (x.declare s d draft).graph.Supplied := by
  let P : Draft → Prop := fun draft => draft.graph.Supplied
  have hprograms := List.foldlRecOn (motive := P) d.programs.entries (fun draft e =>
    draft.addProgram (x.program s e.1 e.2).1 (x.program s e.1 e.2).2) h fun _ hdraft _ _ => hdraft
  exact List.foldlRecOn (motive := P) (d.textures.entries ++ d.volumes.entries) _ hprograms
    fun _ hdraft e he => hdraft.addTexture _ (hd e he)

/-- Finishing a step keeps the graph supplied. -/
theorem Supplied.finish (h : draft.graph.Supplied) (s : Step) (out : Flow) (image : Option String)
    (direct : Bool) :
    (Expander.finish s out image direct draft).graph.Supplied := by
  rcases finish_cases s out image direct draft with ⟨-, heq⟩
    | ⟨o, -, ⟨-, heq⟩ | ⟨-, heq⟩ | ⟨id, -, heq⟩⟩ <;>
    rw [heq]
  · exact h
  · exact h.addSurface _
  · exact h.addSurface _
  · exact h.addSurface _

/-- A step keeps the graph supplied, if every effect is. -/
theorem Supplied.step (h : draft.graph.Supplied)
    (hlookup : ∀ name d, x.lookup name = some d → d.Supplied) (s : Step) :
    (x.step draft s).graph.Supplied := by
  cases hd : x.lookup s.op with
  | none =>
      unfold Expander.step
      rw [hd]
      exact ((h.addError s _).setFlow s.temp _).finish s _ _ _
  | some d =>
      rw [step_known hd]
      have hall : (x.runAll s d draft).draft.graph.Supplied :=
        runAll_induct (P := fun _ w => w.draft.graph.Supplied) (h.declare (hlookup _ d hd) x s)
          fun w i p _ hw => hw.pass _ _ i p
      exact (hall.setFlow s.temp _).finish s _ _ _

/-- The textures of an expansion over declarations from catalogs were supplied. -/
theorem supplied_expand (p : Plan) {lookup : String → Option Descriptor}
    (hlookup : ∀ name d, lookup name = some d → d.Supplied) (overrides : List ShaderOverride) :
    (p.expand lookup overrides).Supplied := by
  refine List.foldlRecOn (motive := fun draft : Draft => draft.graph.Supplied) p.steps _ ?_
    fun _ hdraft s _ => hdraft.step hlookup s
  intro id s hs
  change (Table.empty.insert (surfaceId p.renderSurface) TextureSpec.surface).get? id = some s at hs
  rw [Table.get?_insert] at hs
  split at hs
  · exact Option.some.inj hs ▸ .implied .image
  · simp at hs

/-! ## slots -/

/-- What a texture of the graph needs; one without an entry is a surface. -/
def specOf (g : Graph) (id : String) : TextureSpec := g.textures.getD id .surface

/-- Every spec a supplied graph knows is supplied. -/
theorem Supplied.specOf {g : Graph} (h : g.Supplied) (id : String) : (g.specOf id).Supplied := by
  unfold Graph.specOf Table.getD
  cases hid : g.textures.get? id with
  | none => exact .implied .image
  | some s => exact h id s hid

/-- Textures that are given one slot agree but for the one size that a texture fixes. -/
theorem Supplied.sameClass {g : Graph} (h : g.Supplied) {v w : String} {slot : Nat}
    (hv : g.allocate.slots.get? v = some slot) (hw : g.allocate.slots.get? w = some slot) :
    (g.specOf v).SameClass (g.specOf w) := by
  obtain ⟨spec, hspec, hkey⟩ := stored_of_slot g hv
  obtain ⟨spec', hspec', hkey'⟩ := stored_of_slot g hw
  obtain rfl : spec = spec' := Option.some.inj (hspec.symm.trans hspec')
  exact TextureSpec.sameClass_of_key_eq (h.specOf v).anchored (hkey.symm.trans hkey')

/-- What a slot of a graph stores has a size of its own if it is a volume. -/
theorem Supplied.anchored_of_slot {g : Graph} (h : g.Supplied) {i : Nat} {spec : TextureSpec}
    (hspec : g.allocate.specs[i]? = some spec) : spec.Anchored := by
  obtain ⟨id, hid⟩ := (held_allocate g).1 i (List.getElem?_eq_some_iff.1 hspec).1
  obtain ⟨spec', hspec', hkey⟩ := stored_of_slot g hid
  obtain rfl : spec = spec' := Option.some.inj (hspec.symm.trans hspec')
  exact (h.specOf id).anchored.of_key_eq hkey

end Graph

end supplies

/-- The name of a slot tells its number and its key. -/
theorem key_of_slotId_eq {i j : Nat} {s t : TextureSpec}
    (h : Executor.slotId i s = Executor.slotId j t) :
    i = j ∧ s.key = t.key := by
  obtain rfl := slotId_inj h
  refine ⟨rfl, ?_⟩
  have hlist := congrArg String.toList h
  simp only [Executor.slotId, String.toList_append] at hlist
  exact String.toList_inj.1 (List.append_cancel_left hlist)

namespace Executor

variable {β : Type} {e e' : Executor β} {g : Graph} {alloc : Option Graph.Allocation}

/-! ## names of textures -/

/-- The name of a texture that is remembered is that of a slot that stores it, or that of a
buffer. -/
def Labelled (e : Executor β) : Prop :=
  ∀ t spec, e.textures.get? t = some spec → (∃ i, t = slotId i spec) ∨
    ∃ id, Graph.isPersistent id = true ∧ (t = id ++ "#0" ∨ t = id ++ "#1")

theorem Labelled.of_subset (h : e.Labelled)
    (hsub : ∀ t spec, e'.textures.get? t = some spec → e.textures.get? t = some spec) :
    e'.Labelled :=
  fun t spec ht => h t spec (hsub t spec ht)

/-- What is remembered under the name of a slot has the key of what the slot stores. -/
theorem Labelled.key_of_slot (h : e.Labelled) {i : Nat} {spec kept : TextureSpec}
    (hkept : e.textures.get? (slotId i spec) = some kept) : kept.key = spec.key := by
  rcases h _ _ hkept with ⟨j, hj⟩ | ⟨id, hid, hbuffer | hbuffer⟩
  · exact (key_of_slotId_eq hj).2.symm
  · exact absurd hbuffer (slotId_ne_append hid i spec _)
  · exact absurd hbuffer (slotId_ne_append hid i spec _)

/-- A load creates slots that are not there yet, each with what it stores, and buffers. -/
theorem mem_loadTextures {t : String × TextureSpec} (ht : t ∈ e.loadTextures g alloc) :
    (∃ i, (alloc.getD g.allocate).specs[i]? = some t.2 ∧ t.1 = slotId i t.2 ∧
      e.textures.contains t.1 = false) ∨
      ∃ id, Graph.isPersistent id = true ∧ (t.1 = id ++ "#0" ∨ t.1 = id ++ "#1") := by
  rcases List.mem_append.1 ht with ht | ht
  · obtain ⟨hslot, hnew⟩ := List.mem_filter.1 ht
    obtain ⟨⟨spec, i⟩, hspec, rfl⟩ := List.mem_map.1 hslot
    exact .inl ⟨i, List.mem_zipIdx_iff_getElem?.1 hspec, rfl, by simpa using hnew⟩
  · obtain ⟨b, hb, hbuffer⟩ := List.mem_flatMap.1 ht
    obtain ⟨buffer, hname, rfl⟩ := List.mem_map.1 hbuffer
    obtain ⟨hpersistent, hnamed⟩ := newSurfaces_named e g b hb
    exact .inr ⟨b.id, hpersistent, hnamed.buffer (BufferPair.mem_buffers_iff.1 hname)⟩

variable [Backend β]

/-- Discarding erases the textures. -/
theorem discard_textures (e : Executor β) (ids : List String) :
    (e.discard ids).textures = ids.foldl Table.erase e.textures := by
  unfold discard
  induction ids generalizing e with
  | nil => rfl
  | cons id ids ih => exact ih _

/-- Discarding keeps the textures labelled. -/
theorem Labelled.discard (h : e.Labelled) (ids : List String) : (e.discard ids).Labelled := by
  refine h.of_subset fun t spec ht => ?_
  rw [discard_textures, Table.get?_foldl_erase] at ht
  split at ht
  · cases ht
  · exact ht

/-- Compiling programs keeps the textures. -/
theorem compilePrograms_textures (e : Executor β) (g : Graph) :
    (e.compilePrograms g).1.textures = e.textures := by
  have hall :=
    runList_keeps (f := compileProgram) (fun e₁ => e₁.textures = e.textures) (fun _ _ h => h)
    (e.changedPrograms g) e rfl
  unfold compilePrograms
  dsimp only
  split <;> next hrun => rw [hrun] at hall; exact hall

/-- Textures that are created one after another are remembered. -/
theorem createTextures_textures {done : List String} {ts : List (String × TextureSpec)}
    (h : e.createTextures done ts = (e', none)) :
    e'.textures = ts.foldl (fun s t => s.insert t.1 t.2) e.textures := by
  fun_induction createTextures e done ts with
  | case1 e done =>
      obtain rfl := (Prod.mk.inj h).1
      rfl
  | case2 e done t ts e₁ hone ih =>
      obtain ⟨_, -, rfl⟩ := createTexture_none hone
      exact ih h
  | case3 e done t ts e₁ err hone => cases (Prod.mk.inj h).2

/-- Textures that are created are labelled when their names are. -/
theorem Labelled.createTextures (h : e.Labelled) (done : List String)
    {ts : List (String × TextureSpec)} (hts : ∀ t ∈ ts, (∃ i, t.1 = slotId i t.2) ∨
      ∃ id, Graph.isPersistent id = true ∧ (t.1 = id ++ "#0" ∨ t.1 = id ++ "#1")) :
    (e.createTextures done ts).1.Labelled := by
  fun_induction Executor.createTextures e done ts with
  | case1 e done => exact h
  | case2 e done t ts e₁ hone ih =>
      obtain ⟨_, -, rfl⟩ := createTexture_none hone
      refine ih (fun a spec ha => ?_) fun t' ht' => hts t' (List.mem_cons_of_mem t ht')
      change (e.textures.insert t.1 t.2).get? a = some spec at ha
      rw [Table.get?_insert] at ha
      split at ha
      · next heq =>
          obtain rfl := Option.some.inj ha
          exact heq ▸ hts t List.mem_cons_self
      · exact h a spec ha
  | case3 e done t ts e₁ err hone =>
      obtain ⟨r, hsub⟩ := createTexture_some hone
      have hkept : e₁.textures = e.textures := by rw [(submit_backend hsub).1]
      exact Labelled.discard (h.of_subset fun a spec ha => hkept ▸ ha) done

/-- Loading keeps the textures labelled. -/
theorem Labelled.load (h : e.Labelled) (g : Graph) (alloc : Option Graph.Allocation) :
    (e.load g alloc).1.Labelled := by
  have hcompiled : (e.compilePrograms g).1.Labelled :=
    h.of_subset fun t spec ht => by rwa [compilePrograms_textures] at ht
  have hcreated : ∀ e₁ : Executor β, e₁.Labelled →
      (e₁.createTextures [] (e₁.loadTextures g alloc)).1.Labelled :=
    fun e₁ h₁ => h₁.createTextures [] fun t ht =>
      (mem_loadTextures ht).imp_left fun ⟨i, _, hname, _⟩ => ⟨i, hname⟩
  cases hload : e.load g alloc with
  | mk e' r =>
      cases r with
      | some err =>
          rcases load_some hload with ⟨-, rfl⟩ | ⟨-, ⟨r, hcompile⟩ | ⟨e₁, hcompile, hcreate⟩⟩
          · exact h
          · rwa [hcompile] at hcompiled
          · rw [hcompile] at hcompiled
            have hfailed := hcreated e₁ hcompiled
            rwa [hcreate] at hfailed
      | none =>
          obtain ⟨e₁, e₂, passes, -, hcompile, -, hcreate, rfl⟩ := load_none hload
          rw [hcompile] at hcompiled
          have hdone := hcreated e₁ hcompiled
          rw [loadTextures, hcreate] at hdone
          refine Labelled.discard ?_ _
          exact fun t spec ht => hdone t spec ht

/-- A frame makes no texture and destroys none. -/
theorem sameTextures_carried : Carried (β := β) fun e e' => e'.textures = e.textures where
  refl _ := rfl
  trans h h' := h'.trans h
  submit _ _ _ := rfl
  surfaces _ _ _ := rfl
  frames _ _ := rfl

/-- Every renderer that can be reached has names for its textures. -/
theorem labelled_of_reachable (h : Reachable e) : e.Labelled := by
  induction h with
  | start h =>
      obtain ⟨w, h, rfl⟩ := start_fresh h
      intro t spec ht
      simp at ht
  | load _ g alloc ih => exact ih.load g alloc
  | @frame e _ state ih =>
      refine ih.of_subset fun t spec ht => ?_
      rwa [sameTextures_carried.frame e state] at ht
  | @resize e _ width height ih =>
      refine ih.of_subset fun t spec ht => ?_
      rwa [(resize_keeps e width height).1] at ht
  | @dispose e _ ih =>
      unfold dispose
      split
      · exact ih
      · intro t spec ht
        cases ht

/-! ## slots that are kept -/

/-- A slot that is there when a graph is loaded is kept, and any other is made as the graph
needs it. -/
theorem load_slot (h : e.load g alloc = (e', none)) {i : Nat} {spec : TextureSpec}
    (hspec : (alloc.getD g.allocate).specs[i]? = some spec) :
    e'.textures.get? (slotId i spec) = some ((e.textures.get? (slotId i spec)).getD spec) := by
  obtain ⟨e₁, e₂, passes, -, hcompile, -, hcreate, rfl⟩ := load_none h
  have hsame : e₁.textures = e.textures := by
    have hcompiled := compilePrograms_textures e g
    rwa [hcompile] at hcompiled
  have hkeep : slotId i spec ∈ slotIds (alloc.getD g.allocate) :=
    List.mem_map.2 ⟨(spec, i), List.mem_zipIdx_iff_getElem?.2 hspec, rfl⟩
  change e₁.createTextures [] (e₁.loadTextures g alloc) = (e₂, none) at hcreate
  rw [releaseSlots, discard_textures, Table.get?_foldl_erase, if_neg fun hgone => ?released]
  case released =>
    have hnot := (List.mem_filter.1 hgone).2
    simp [hkeep] at hnot
  change e₂.textures.get? _ = _
  rw [createTextures_textures hcreate, Table.get?_foldl_insert, hsame]
  -- what the load creates under the name of the slot
  have hmade : ∀ spec', (slotId i spec, spec') ∈ e₁.loadTextures g alloc →
      spec' = spec ∧ e.textures.get? (slotId i spec) = none := by
    intro spec' hmem
    rcases mem_loadTextures hmem with ⟨j, hj, hname, hnew⟩ | ⟨id, hid, hbuffer | hbuffer⟩
    · obtain rfl := (key_of_slotId_eq hname).1
      refine ⟨Option.some.inj (hj.symm.trans hspec), ?_⟩
      rw [hsame] at hnew
      simpa [Table.contains] using hnew
    · exact absurd hbuffer (slotId_ne_append hid i spec _)
    · exact absurd hbuffer (slotId_ne_append hid i spec _)
  cases hlookup : (e₁.loadTextures g alloc).reverse.lookup (slotId i spec) with
  | some spec' =>
      obtain ⟨as, bs, hsplit, -⟩ := List.lookup_eq_some_iff.1 hlookup
      have hmem : (slotId i spec, spec') ∈ e₁.loadTextures g alloc := by
        rw [← List.mem_reverse, hsplit]
        simp
      obtain ⟨rfl, hnone⟩ := hmade spec' hmem
      rw [hnone]
      rfl
  | none =>
      cases hold : e.textures.get? (slotId i spec) with
      | some kept => rfl
      | none =>
          -- it would have been created
          have hmem : (slotId i spec, spec) ∈ e₁.loadTextures g alloc := by
            refine List.mem_append_left _ (List.mem_filter.2 ⟨?_, ?_⟩)
            · exact List.mem_map.2 ⟨(spec, i), List.mem_zipIdx_iff_getElem?.2 hspec, rfl⟩
            · simp [hsame, Table.contains, hold]
          have hall := List.lookup_eq_none_iff.1 hlookup _ (List.mem_reverse.2 hmem)
          simp at hall

end Executor

open Executor in
/-- Textures that share a slot of a graph have the same format and dimension, and take up the
same in every viewport unless one of them fixes its width or its height alone; then they do
if and only if they declare the same width and height (`TextureSpec.SameClass`).  The same
is true of what a slot needs and of what a renderer, whatever it did before, keeps for it
when the graph is loaded: a texture under the name of the slot stays as it was made. -/
theorem shared_storage {g : Graph} (hg : g.Supplied) :
    (∀ v w slot, g.allocate.slots.get? v = some slot → g.allocate.slots.get? w = some slot →
      (g.specOf v).SameClass (g.specOf w)) ∧
    ∀ {β : Type} [Backend β] {e e' : Executor β}, e.Reachable →
      e.load g (some g.allocate) = (e', none) → ∀ i spec, g.allocate.specs[i]? = some spec →
        let kept := (e.textures.get? (slotId i spec)).getD spec
        e'.textures.get? (slotId i spec) = some kept ∧ kept.SameClass spec ∧
          ∀ (works : β → Prop) held seen, Unfailing works held → Executor.Course works held e seen →
            (held e'.backend).get? (slotId i spec) = some (kept.sized e'.width e'.height) := by
  refine ⟨fun v w slot hv hw => hg.sameClass hv hw, fun {β} _ {e e'} he hload i spec hspec => ?_⟩
  have hkept := load_slot hload hspec
  have hanchored := hg.anchored_of_slot hspec
  have hkey : ((e.textures.get? (slotId i spec)).getD spec).key = spec.key := by
    cases hold : e.textures.get? (slotId i spec) with
    | none => rfl
    | some old => exact (labelled_of_reachable he).key_of_slot hold
  refine ⟨hkept, TextureSpec.sameClass_of_key_eq (hanchored.of_key_eq hkey) hkey,
    fun works held seen hb hcourse => ?_⟩
  have hsized := ((hcourse.load g (some g.allocate)).inventory hb).sized
  rw [hload] at hsized
  rw [hsized, Table.get?_map, hkept]
  rfl

/-- A graph whose one pass writes a texture and whose next pass shows it. -/
def ribbonPasses (id : String) : List Graph.Pass :=
  [{ id := "draw " ++ id, program := "fill", outputs := .ofList [("color", id)] },
    { id := "show " ++ id, program := "fill", inputs := .ofList [("tex", id)],
      outputs := .ofList [("color", "global_o0")] }]

/-- A graph in which a texture of a fixed width and one that follows the viewport are live in
different passes. -/
def ribbon : Graph where
  passes := ribbonPasses "node_0_wide" ++ ribbonPasses "node_1_plain"
  programs := .ofList [("fill", { wgsl := "fn fill() \x7b\x7d" })]
  textures := .ofList [("global_o0", .surface), ("node_0_wide", { width := 256 }),
    ("node_1_plain", .surface)]
  render := "global_o0"

/-- The graph without the texture of a fixed width. -/
def plainRibbon : Graph where
  passes := ribbonPasses "node_1_plain"
  programs := ribbon.programs
  textures := .ofList [("global_o0", .surface), ("node_1_plain", .surface)]
  render := "global_o0"

theorem ribbon_supplied : ribbon.Supplied := by
  intro id s hs
  have hmem : s ∈ ribbon.textures.values := Table.mem_values_iff.2 ⟨id, hs⟩
  have hvalues : ribbon.textures.values = [.surface, { width := 256 }, .surface] := by
    decide +kernel
  have hwide : CatalogFile.texture? .surface (.map [("width", .int 256)]) =
      some { width := 256 } := by
    decide +kernel
  rw [hvalues] at hmem
  simp only [List.mem_cons, List.not_mem_nil, or_false] at hmem
  rcases hmem with rfl | rfl | rfl
  · exact .implied .image
  · exact .texture hwide
  · exact .implied .image

theorem plainRibbon_supplied : plainRibbon.Supplied := by
  intro id s hs
  have hmem : s ∈ plainRibbon.textures.values := Table.mem_values_iff.2 ⟨id, hs⟩
  have hvalues : plainRibbon.textures.values = [.surface, .surface] := by decide +kernel
  rw [hvalues] at hmem
  simp only [List.mem_cons, List.not_mem_nil, or_false, or_self] at hmem
  exact hmem ▸ .implied .image

/-- The two textures are given one slot and do not take up the same in every viewport.  When
the second graph is loaded after the first, its slot stays as wide as the first one needed it. -/
theorem ribbon_shares_slot :
    (ribbon.allocate.slots.get? "node_0_wide" = some 0 ∧ ribbon.allocate.slots.get? "node_1_plain" =
      some 0 ∧
      ¬ ∀ w h, 0 < w → 0 < h →
        (ribbon.specOf "node_0_wide").storage w h = (ribbon.specOf "node_1_plain").storage w h) ∧
    plainRibbon.allocate.specs = [.surface] ∧
    ∃ e', (mistStart.load ribbon none).1.load plainRibbon (some plainRibbon.allocate) = (e', none) ∧
      e'.width = 64 ∧
      e'.backend.textures.get? "slot_0@rgba8unorm" =
        some { width := 256, height := 32, depth := 1 } := by
  obtain ⟨hshared, -⟩ := shared_storage ribbon_supplied
  obtain ⟨-, hkept⟩ := shared_storage plainRibbon_supplied
  have hslots : ribbon.allocate.slots.get? "node_0_wide" = some 0 ∧
      ribbon.allocate.slots.get? "node_1_plain" = some 0 := by
    decide +kernel
  have hwidths : (ribbon.specOf "node_0_wide").width ≠ (ribbon.specOf "node_1_plain").width := by
    decide +kernel
  have hspecs : plainRibbon.allocate.specs = [.surface] := by decide +kernel
  have hstart : Executor.start ({} : Recorder) 64 32 = (mistStart.backend, .ok mistStart) := rfl
  have hreachable : (mistStart.load ribbon none).1.Reachable := .load (.start hstart) ribbon none
  have hbegun : Executor.Course Recorder.Works Recorder.textures mistStart [] :=
    .start ⟨rfl, rfl⟩ rfl hstart
  have hcourse := hbegun.load ribbon none
  have hfacts : ((mistStart.load ribbon none).1.load plainRibbon
      (some plainRibbon.allocate)).2.isNone = true ∧
      ((mistStart.load ribbon none).1.load plainRibbon (some plainRibbon.allocate)).1.width = 64 ∧
      ((mistStart.load ribbon none).1.load plainRibbon (some plainRibbon.allocate)).1.height = 32 ∧
      (mistStart.load ribbon none).1.textures.get? "slot_0@rgba8unorm" = some { width := 256 } ∧
      Executor.slotId 0 .surface = "slot_0@rgba8unorm" := by
    decide +kernel
  obtain ⟨hnone, hwidth, hheight, hold, hname⟩ := hfacts
  have hload : (mistStart.load ribbon none).1.load plainRibbon (some plainRibbon.allocate) =
      (_, none) := Prod.snd_eq_iff.1 (Option.isNone_iff_eq_none.1 hnone)
  obtain ⟨-, -, hheld⟩ := hkept hreachable hload 0 .surface (by rw [hspecs]; rfl)
  have htexture := hheld _ _ _ Recorder.unfailing hcourse
  rw [hname, hold, hwidth, hheight] at htexture
  refine ⟨⟨hslots.1, hslots.2, fun hall => ?_⟩, hspecs, _, hload, hwidth, htexture⟩
  exact hwidths ((hshared _ _ 0 hslots.1 hslots.2).exact.1 hall).1

end EffectChain
