import EffectChain.Proofs.Graph.Allocation
import EffectChain.Proofs.Graph.Supply
import EffectChain.Proofs.Render.Bindings
import EffectChain.Proofs.Render.Carried

/-!
# EffectChain.Proofs.Render.CleanFrame

A graph that was expanded without errors and loaded renders every frame that has a size
and whose conditions have values, on a backend that refuses nothing
(`clean_frame_succeeds`).

* `Executor.Retains` — what a renderer keeps through every call but disposal and another
  graph: the graph, its programs and its surfaces;
* `Frame.Serves` — a frame with a size of a renderer that holds its graph; no pass of the
  graph fails in it (`Frame.Serves.dispatch`), and it goes on to serve.
-/

namespace EffectChain

/-- The backend refuses no call. -/
def AcceptsAll (β : Type) [Backend β] : Prop :=
  ∀ (b : β) (c : Request), (Backend.submit b c).2 = none

/-! ## what a renderer keeps -/

namespace Executor

variable {β : Type} {e e' e'' : Executor β}

/-- The second renderer runs the same graph, and it has the programs and the surfaces of
the first. -/
structure Retains (e e' : Executor β) : Prop where
  current : e'.current = e.current
  disposed : e'.disposed = e.disposed
  programs : ∀ id, e.programs.contains id = true → e'.programs.contains id = true
  surfaces : ∀ id, e.surfaces.contains id = true → e'.surfaces.contains id = true

namespace Retains

theorem refl (e : Executor β) : Retains e e := ⟨rfl, rfl, fun _ h => h, fun _ h => h⟩

/-- What is retained twice is retained. -/
theorem trans (h : Retains e e') (h' : Retains e' e'') : Retains e e'' where
  current := h'.current.trans h.current
  disposed := h'.disposed.trans h.disposed
  programs := fun id hid => h'.programs id (h.programs id hid)
  surfaces := fun id hid => h'.surfaces id (h.surfaces id hid)

variable [Backend β]

theorem submit {c : Request} {r : Option Refusal} (h : e.submit c = (e', r)) : Retains e e' := by
  obtain rfl : (e.submit c).1 = e' := congrArg Prod.fst h
  exact ⟨rfl, rfl, fun _ h => h, fun _ h => h⟩

end Retains

variable [Backend β]

/-- Discarding textures retains the executor. -/
theorem discard_retains (e : Executor β) (ids : List String) : Retains e (e.discard ids) := by
  unfold discard
  induction ids generalizing e with
  | nil => exact .refl e
  | cons id ids ih =>
      have hone : Retains e
          { (e.submit (.destroyTexture id)).1 with textures := e.textures.erase id } :=
        ⟨rfl, rfl, fun _ h => h, fun _ h => h⟩
      exact hone.trans (ih _)

/-- Compiling keeps what was compiled.  When it succeeds, all programs of the graph are. -/
theorem compilePrograms_retains {g : Graph} {r : Option RenderError}
    (h : e.compilePrograms g = (e', r)) :
    Retains e e' ∧
    (r = none → ∀ id, g.programs.contains id = true → e'.programs.contains id = true) := by
  have hall : Retains e (runList compileProgram e (e.changedPrograms g)).1 :=
    runList_keeps (Retains e) (fun e' p h => h.trans (Retains.submit rfl)) _ e (.refl e)
  have hsame : (runList compileProgram e (e.changedPrograms g)).1.programs = e.programs :=
    runList_keeps (fun e' => e'.programs = e.programs) (fun _ _ h => h) _ e rfl
  have hview : ∀ (ps : List (String × Shader)) (t : Table UInt64) (id : String),
      (ps.foldl (fun t (p : String × Shader) => t.insert p.1 p.2.digest) t).contains id = true ↔
        (∃ p ∈ ps, p.1 = id) ∨ t.contains id = true := by
    intro ps
    induction ps with
    | nil => simp
    | cons p ps ih =>
        intro t id
        rw [List.foldl_cons, ih]
        simp only [Table.contains_insert, Bool.or_eq_true, decide_eq_true_eq,
          List.exists_mem_cons_iff]
        grind
  unfold compilePrograms at h
  dsimp only at h
  cases hr : runList compileProgram e (e.changedPrograms g) with
  | mk e₁ r₁ =>
      rw [hr] at h hall hsame
      cases r₁ with
      | some err =>
          obtain ⟨rfl, rfl⟩ := Prod.mk.inj h
          exact ⟨hall, by simp⟩
      | none =>
          obtain ⟨rfl, rfl⟩ := Prod.mk.inj h
          have hsame : e₁.programs = e.programs := hsame
          have hkept : ∀ id, e.programs.contains id = true → e₁.programs.contains id = true :=
            fun id hid => hsame ▸ hid
          refine ⟨⟨hall.current, hall.disposed, fun id hid =>
            (hview _ _ id).2 (.inr (hkept id hid)),
            hall.surfaces⟩, ?_⟩
          intro _ id hid
          obtain ⟨s, hs⟩ := Table.contains_iff.1 hid
          refine (hview _ _ id).2 ?_
          by_cases hdigest : e.programs.get? id = some s.digest
          · exact .inr (hkept id (by simp [Table.contains, hdigest]))
          · refine .inl ⟨(id, s), List.mem_filter.2 ⟨Table.mem_entries_iff.2 hs, ?_⟩, rfl⟩
            simpa using hdigest

/-- Creating a texture retains the executor. -/
theorem createTexture_retains (e : Executor β) (t : String × TextureSpec) :
    Retains e (e.createTexture t).1 := by
  unfold createTexture
  cases hs : e.submit (.createTexture t.1 (t.2.sized e.width e.height)) with
  | mk e₁ r =>
      have hsub := Retains.submit hs
      cases r with
      | some r => exact hsub
      | none => exact hsub.trans ⟨rfl, rfl, fun _ h => h, fun _ h => h⟩

/-- Creating textures retains the executor. -/
theorem createTextures_retains {ts : List (String × TextureSpec)} {done : List String}
    {r : Option RenderError} (h : e.createTextures done ts = (e', r)) : Retains e e' := by
  induction ts generalizing e done with
  | nil => exact (Prod.mk.inj h).1 ▸ .refl e
  | cons t ts ih =>
      have hone := createTexture_retains e t
      unfold createTextures at h
      cases hc : e.createTexture t with
      | mk e₁ r₁ =>
          rw [hc] at hone h
          cases r₁ with
          | none => exact hone.trans (ih h)
          | some err => exact (Prod.mk.inj h).1 ▸ hone.trans (discard_retains e₁ done)

/-- Loading that fails changes nothing that the running graph needs. -/
theorem load_retains {g : Graph} {alloc : Option Graph.Allocation} {err : RenderError}
    (h : e.load g alloc = (e', some err)) : Retains e e' := by
  unfold load at h
  dsimp only at h
  split at h
  · exact (Prod.mk.inj h).1 ▸ .refl e
  · split at h
    · next e₁ err' hcompile => exact (Prod.mk.inj h).1 ▸ (compilePrograms_retains hcompile).1
    · next e₁ hcompile =>
        have hcompiled := (compilePrograms_retains hcompile).1
        split at h
        · exact (Prod.mk.inj h).1 ▸ hcompiled
        · split at h
          · next e₂ err' hcreate =>
              exact (Prod.mk.inj h).1 ▸ hcompiled.trans (createTextures_retains hcreate)
          · simp at h

/-- Resizing retains the executor. -/
theorem resize_retains (e : Executor β) (width height : Int) :
    Retains e (e.resize width height).1 := by
  have hone : ∀ (e : Executor β) (t : String × TextureSpec), Retains e (e.recreate t).1 := by
    intro e t
    unfold recreate
    cases hs : e.submit (.destroyTexture t.1) with
    | mk e₁ r =>
        have hsub := Retains.submit hs
        cases r with
        | some r => exact hsub
        | none => exact hsub.trans (Retains.submit rfl)
  unfold resize
  split
  · exact .refl e
  · cases hs : e.submit (.resize width height) with
    | mk e₁ r =>
        have hsub := Retains.submit hs
        cases r with
        | some r => exact hsub
        | none =>
            have hsized : Retains e { e₁ with width, height } :=
              hsub.trans ⟨rfl, rfl, fun _ h => h, fun _ h => h⟩
            exact runList_keeps (f := recreate) (Retains e) (fun e' t h => h.trans (hone e' t)) _
              _ hsized

/-- A frame changes nothing that the running graph needs, whether it succeeds or not. -/
theorem retains_carried : Carried (β := β) Retains where
  refl := Retains.refl
  trans := Retains.trans
  submit := fun _ _ _ => .submit rfl
  surfaces := fun _ _ hs => ⟨rfl, rfl, fun _ h => h, hs⟩
  frames := fun _ _ => ⟨rfl, rfl, fun _ h => h, fun _ h => h⟩

/-- The renderers that frames, changes of the size and loads that fail lead to. -/
inductive Onward (e : Executor β) : Executor β → Prop
  | refl : Onward e e
  | frame {e' : Executor β} (h : Onward e e') (state : FrameState) : Onward e (e'.frame state).1
  | resize {e' : Executor β} (h : Onward e e') (width height : Int) : Onward e
      (e'.resize width height).1
  | failed {e' e'' : Executor β} (h : Onward e e') {g : Graph} {alloc : Option Graph.Allocation}
      {err : RenderError} (hfail : e'.load g alloc = (e'', some err)) : Onward e e''

/-- Going on retains the executor. -/
theorem Onward.retains (h : Onward e e') : Retains e e' := by
  induction h with
  | refl => exact .refl e
  | frame _ state ih => exact ih.trans (retains_carried.frame _ state)
  | resize _ width height ih => exact ih.trans (resize_retains _ width height)
  | failed _ hfail ih => exact ih.trans (load_retains hfail)

/-! ## what a loaded graph finds -/

/-- The renderer runs the graph with the allocation of its own, and has its programs and
its surfaces. -/
structure Holds (e : Executor β) (g : LoadedGraph) : Prop where
  current : e.current = some g
  live : e.disposed = false
  ready : g.Ready
  own : g.alloc = g.graph.allocate
  programs : ∀ id, g.graph.programs.contains id = true → e.programs.contains id = true
  surfaces : ∀ id, Graph.isPersistent id = true → g.graph.textures.contains id = true →
    e.surfaces.contains id = true

omit [Backend β] in
/-- A retained executor holds what it held. -/
theorem Holds.of_retains {g : LoadedGraph} (h : e.Holds g) (hr : Retains e e') : e'.Holds g where
  current := hr.current.trans h.current
  live := hr.disposed.trans h.live
  ready := h.ready
  own := h.own
  programs := fun id hid => hr.programs id (h.programs id hid)
  surfaces := fun id hp hid => hr.surfaces id (h.surfaces id hp hid)

/-- A graph that was loaded is held. -/
theorem load_holds {g : Graph} (h : e.load g (some g.allocate) = (e', none)) :
    ∃ g' : LoadedGraph, g'.graph = g ∧ e'.Holds g' := by
  obtain ⟨e₁, e₂, passes, hlive, hcompile, hpasses, hcreate, rfl⟩ := load_none h
  obtain ⟨hretains, hprograms⟩ := compilePrograms_retains hcompile
  have hcreated := createTextures_retains hcreate
  have hview : ∀ (bs : List BufferPair) (t : Table BufferPair) (id : String),
      (bs.foldl (fun t (b : BufferPair) => t.insert b.id b) t).contains id = true ↔
        (∃ b ∈ bs, b.id = id) ∨ t.contains id = true := by
    intro bs
    induction bs with
    | nil => simp
    | cons b bs ih =>
        intro t id
        rw [List.foldl_cons, ih]
        simp only [Table.contains_insert, Bool.or_eq_true, decide_eq_true_eq,
          List.exists_mem_cons_iff]
        grind
  refine ⟨⟨g, g.allocate, passes, slotIds g.allocate⟩, rfl, ?_⟩
  refine Holds.of_retains (e := { e₂ with
    surfaces := (e₁.newSurfaces g).foldl (fun t (b : BufferPair) => t.insert b.id b) e₂.surfaces
    current := some ⟨g, g.allocate, passes, slotIds g.allocate⟩ }) ?_ (discard_retains _ _)
  refine ⟨rfl, ?_, ⟨hpasses, rfl⟩, rfl, fun id hid => ?_, fun id hp hid => ?_⟩
  · exact (hretains.trans hcreated).disposed.trans hlive
  · exact hcreated.programs id (hprograms rfl id hid)
  · refine (hview _ _ id).2 ?_
    by_cases hold : e₁.surfaces.contains id = true
    · exact .inr (hcreated.surfaces id hold)
    · refine .inl ⟨.ofSurface id (g.textures.getD id .surface), List.mem_map.2 ⟨id, ?_, rfl⟩, rfl⟩
      refine List.mem_filter.2 ⟨List.mem_filter.2 ⟨Table.mem_keys_iff.2 hid, hp⟩, ?_⟩
      simpa using hold

end Executor

/-! ## a frame that serves its passes -/

/-- What every step keeps and succeeds with, a list of steps succeeds with. -/
theorem runList_succeeds {α σ ε : Type} {f : σ → α → σ × Option ε} {P : σ → Prop} {l : List α}
    (hstep : ∀ s, P s → ∀ a ∈ l, (f s a).2 = none ∧ P (f s a).1) {s : σ} (h : P s) :
    (runList f s l).2 = none ∧ P (runList f s l).1 := by
  induction l generalizing s with
  | nil => exact ⟨rfl, h⟩
  | cons a as ih =>
      obtain ⟨hnone, hkept⟩ := hstep s h a List.mem_cons_self
      rw [runList]
      cases hs : f s a with
      | mk s' r =>
          rw [hs] at hnone hkept
          obtain rfl : r = none := hnone
          exact ih (fun s h a ha => hstep s h a (List.mem_cons_of_mem _ ha)) hkept

namespace Frame

variable {β : Type} {f f' : Frame β}

/-- The texture has storage in the frame. -/
def Stores (f : Frame β) (id : String) : Prop :=
  f.exec.surfaces.contains id = true ∨ (f.slot? id).isSome = true

/-- What is stored can be read. -/
theorem bindRead_ok {id : String} (h : f.Stores id) (pass : String) :
    ∃ t, f.bindRead pass id = .ok t := by
  cases hs : f.exec.surfaces.get? id with
  | some b => exact ⟨_, bindRead_surface hs pass⟩
  | none =>
      obtain ⟨t, ht⟩ := Option.isSome_iff_exists.1 (h.resolve_left (by simp [Table.contains, hs]))
      exact ⟨t, (bindRead_stored hs pass).trans (stored_eq_ok.2 ht)⟩

/-- Inputs with storage are bound. -/
theorem bindInputs_ok {inputs : Table String}
    (h : ∀ name id, inputs.get? name = some id → f.Stores id) (pass : String) :
    ∃ r, f.bindInputs pass inputs = .ok r := by
  have hall : ∀ (es : List (String × String)) (acc : Table String), (∀ e ∈ es, f.Stores e.2) →
      ∃ r, es.foldlM (fun t e => (f.bindRead pass e.2).map (t.insert e.1)) acc = .ok r := by
    intro es
    induction es with
    | nil => exact fun acc _ => ⟨acc, rfl⟩
    | cons e es ih =>
        intro acc hes
        obtain ⟨t, ht⟩ := bindRead_ok (hes e List.mem_cons_self) pass
        obtain ⟨r, hr⟩ := ih (acc.insert e.1 t) fun e he => hes e (List.mem_cons_of_mem _ he)
        refine ⟨r, ?_⟩
        rw [List.foldlM_cons]
        simp only [ht, Except.map, bind, Except.bind]
        exact hr
  exact hall inputs.entries {} fun e he => h e.1 e.2 (Table.mem_entries_iff.1 he)

/-- Outputs with storage are bound. -/
theorem bindOutputs_ok (pass : String) {outs : List (String × String)}
    (h : ∀ e ∈ outs, f.Stores e.2) (bound : Table String) :
    ∃ f₁ r, bindOutputs pass f bound outs = (f₁, .ok r) := by
  induction outs generalizing f bound with
  | nil => exact ⟨f, bound, rfl⟩
  | cons o outs ih =>
      have hrest : ∀ e ∈ outs, f.Stores e.2 := fun e he => h e (List.mem_cons_of_mem _ he)
      rw [bindOutputs]
      cases hs : f.exec.surfaces.get? o.2 with
      | some b =>
          rw [bindWrite_surface hs]
          refine ih (fun e he => ?_) _
          refine (hrest e he).imp (fun hc => ?_) fun hslot => hslot
          simp [hc]
      | none =>
          obtain ⟨t, ht⟩ := Option.isSome_iff_exists.1
            ((h o List.mem_cons_self).resolve_left (by simp [Table.contains, hs]))
          rw [bindWrite_stored hs, stored_eq_ok.2 ht]
          exact ih hrest _

/-- A frame with a size, of a renderer that holds a graph without errors. -/
structure Serves (f : Frame β) : Prop where
  holds : f.exec.Holds f.current
  sound : f.current.graph.Sound
  clean : f.current.graph.errors = []
  width : 0 < f.state.width
  height : 0 < f.state.height

/-- A frame with the same setting and a retained executor serves the same passes. -/
theorem Serves.of_same (h : f.Serves) (hsame : f.SameSetting f')
    (hretains : f.exec.Retains f'.exec) :
    f'.Serves where
  holds := hsame.current ▸ h.holds.of_retains hretains
  sound := hsame.current ▸ h.sound
  clean := hsame.current ▸ h.clean
  width := hsame.state ▸ h.width
  height := hsame.state ▸ h.height

/-- Every texture that a pass binds has storage: a texture that lives within a frame has a
slot, and the renderer has the surfaces of its graph. -/
theorem Serves.stores (h : f.Serves) {i : Nat} {id : String}
    (hbinds : Graph.Binds f.current.graph.passes i id) (hknows : f.current.graph.Knows id) :
    f.Stores id := by
  cases hp : Graph.isPersistent id with
  | true => exact .inl (h.holds.surfaces id hp (hknows hp))
  | false =>
      obtain ⟨slot, hslot⟩ := Table.contains_iff.1
        ((Graph.contains_slots_iff f.current.graph id).2 ⟨hp, i, hbinds⟩)
      obtain ⟨spec, hspec, -⟩ := Graph.stored_of_slot f.current.graph hslot
      have hid : (slotIds f.current.graph.allocate)[slot]? = some (Executor.slotId slot spec) := by
        simp [slotIds, hspec]
      right
      rw [slot?, h.holds.ready.slots, h.holds.own, hslot, Option.bind_some, hid]
      rfl

/-- The number of workgroups of a pass can be told. -/
theorem Serves.groups (h : f.Serves) {p : Graph.Pass} (hp : p ∈ f.current.graph.passes) :
    ∃ g, f.groups p = .ok g := by
  have hsupplies := h.sound.passes p hp
  obtain ⟨x, y, z, hworkgroup, hx, hy, hz⟩ := hsupplies.workgroup
  have hnames : Graph.sortedNames p.outputs.values ≠ [] := by
    obtain ⟨e, es, he⟩ := List.exists_cons_of_ne_nil (hsupplies.written h.clean)
    have hmem : e.2 ∈ Graph.sortedNames p.outputs.values :=
      Graph.mem_sortedNames.2 (by simp [Table.values, he])
    exact List.ne_nil_of_mem hmem
  obtain ⟨id, rest, hnames⟩ := List.exists_cons_of_ne_nil hnames
  have hsized : (f.current.graph.textures.getD id .surface).Sized := by
    cases hget : f.current.graph.textures.get? id with
    | none => simpa [Table.getD, hget] using TextureSpec.Sized.surface
    | some spec => simpa [Table.getD, hget] using h.sound.sized id spec hget
  have hsize : ∃ a b c : Int, f.outputSize id = [a, b, c] ∧ 1 ≤ a ∧ 1 ≤ b ∧ 1 ≤ c := by
    obtain ⟨hw, hh, hd⟩ := hsized.pos h.width h.height
    refine ⟨_, _, _, rfl, hw, hh, ?_⟩
    split
    · exact hd
    · exact Int.le_refl 1
  obtain ⟨a, b, c, hsize, ha, hb, hc⟩ := hsize
  refine ⟨(workgroups a x, workgroups b y, workgroups c z), ?_⟩
  have hfits : ¬ (x < 1 ∨ a < 1 ∨ y < 1 ∨ b < 1 ∨ z < 1 ∨ c < 1) := by omega
  unfold Frame.groups
  simp only [hnames, hsize, hworkgroup, List.zip_cons_cons, List.zip_nil_right, List.map_cons,
    List.map_nil, List.any_cons, List.any_nil, Bool.or_false, Bool.or_eq_true, decide_eq_true_eq,
      or_assoc, if_neg hfits]

variable [Backend β]

/-- No pass of the graph fails, and the frame goes on to serve. -/
theorem Serves.dispatch (h : f.Serves) (haccepts : AcceptsAll β) {p : Graph.Pass}
    (hp : p ∈ f.current.graph.passes) (u : Table Datum) (n : Int) :
    (dispatch p u f n).2 = none ∧ (dispatch p u f n).1.Serves ∧
    f.SameSetting (dispatch p u f n).1 := by
  obtain ⟨i, hi⟩ := List.getElem?_of_mem hp
  have hsupplies := h.sound.passes p hp
  have hinputs : ∀ name id, p.inputs.get? name = some id → f.Stores id := fun name id hid =>
    h.stores ⟨p, hi, .inl (Table.mem_values_iff.2 ⟨name, hid⟩)⟩ (hsupplies.inputs name id hid)
  have houtputs : ∀ e ∈ p.outputs.entries, f.Stores e.2 := fun e he =>
    have hid := Table.mem_entries_iff.1 he
    h.stores ⟨p, hi, .inr (Table.mem_values_iff.2 ⟨e.1, hid⟩)⟩ (hsupplies.outputs e.1 e.2 hid)
  obtain ⟨inputs, hin⟩ := bindInputs_ok hinputs p.id
  obtain ⟨f₁, outputs, hout⟩ := bindOutputs_ok p.id houtputs {}
  have hnone : (Frame.dispatch p u f n).2 = none := by
    have hserves : f₁.Serves := by
      have hsame := bindOutputs_same p.id f {} p.outputs.entries
      have hretains := Executor.retains_carried.bindOutputs p.id f {} p.outputs.entries
      rw [hout] at hsame hretains
      exact h.of_same hsame hretains
    have hcurrent : f₁.current = f.current := by
      have hsame := bindOutputs_same p.id f {} p.outputs.entries
      rw [hout] at hsame
      exact hsame.current
    obtain ⟨g, hg⟩ : ∃ g, (if p.kind = .compute then f₁.groups p else .ok (0, 0, 0)) = .ok g := by
      split
      · exact hserves.groups (hcurrent ▸ hp)
      · exact ⟨_, rfl⟩
    unfold Frame.dispatch
    rw [hin]
    dsimp only
    rw [hout]
    dsimp only
    rw [hg]
    dsimp only
    split
    · next exec r hsub =>
        have hrefuse := congrArg Prod.snd hsub
        exact absurd ((haccepts _ _).symm.trans hrefuse) (by simp)
    · rfl
  have hsame := dispatch_same (Prod.ext rfl hnone)
  exact ⟨hnone, h.of_same hsame (Executor.retains_carried.dispatch p u f n), hsame⟩

/-- A group of passes does not fail when the conditions of its passes have values. -/
theorem Serves.group (haccepts : AcceptsAll β) {env : Env} {g : LoadedGraph}
    (hconditions : ∀ p ∈ g.passes, ∃ n, p.times (env.union (p.uniforms env)) = .ok n)
    {ps : List LoadedPass} (hps : ∀ p ∈ ps, p ∈ g.passes) {f : Frame β}
    (h : f.Serves ∧ f.current = g ∧ f.env = env) :
    (f.group ps).2 = none ∧ (f.group ps).1.Serves ∧ (f.group ps).1.current = g ∧
    (f.group ps).1.env = env := by
  have hpass : ∀ (round : Int) (f : Frame β), f.Serves ∧ f.current = g ∧ f.env = env → ∀ p ∈ ps,
      (Frame.pass round f p).2 = none ∧ (Frame.pass round f p).1.Serves ∧
        (Frame.pass round f p).1.current = g ∧ (Frame.pass round f p).1.env = env := by
    rintro round f ⟨hserves, rfl, rfl⟩ p hp
    obtain ⟨n, hn⟩ := hconditions p (hps p hp)
    have hmem : p.pass ∈ f.current.graph.passes := by
      rw [← hserves.holds.ready.map_pass]
      exact List.mem_map_of_mem (hps p hp)
    have hprogram := hserves.holds.programs _ (hserves.sound.passes _ hmem).program
    unfold LoadedPass.uniforms at hn
    unfold Frame.pass
    dsimp only
    rw [hn]
    simp only [hprogram, Bool.not_true, Bool.false_eq_true, if_false]
    refine runList_succeeds (P := fun f' : Frame β => f'.Serves ∧ f'.current = f.current ∧
      f'.env = f.env) ?_
      ⟨hserves, rfl, rfl⟩
    rintro f' ⟨hserves', hcurrent, henv⟩ n -
    obtain ⟨hnone, hkept, hsame⟩ := hserves'.dispatch haccepts (hcurrent ▸ hmem)
      (p.pass.uniforms.map fun _ v => v.eval f.env) n
    exact ⟨hnone, hkept, hsame.current.trans hcurrent, hsame.env.trans henv⟩
  unfold Frame.group
  cases ps with
  | nil => exact ⟨rfl, h⟩
  | cons p ps =>
      dsimp only
      split
      · exact runList_succeeds (P := fun f' : Frame β => f'.Serves ∧ f'.current = g ∧ f'.env = env)
          (fun f h round _ => runList_succeeds (hpass round) h) h
      · exact ⟨rfl, h⟩

/-- Ending a frame does not fail when nothing is refused. -/
theorem finish_accepted (haccepts : AcceptsAll β) (f : Frame β) : f.finish.2 = none := by
  have hsub : ∀ {e e' : Executor β} {c : Request} {r : Option Refusal}, e.submit c = (e', r) →
      r = none :=
    fun h => (congrArg Prod.snd h).symm.trans (haccepts _ _)
  have hsettle : ∀ (e : Executor β) (b : BufferPair), (settle e b).2 = none := by
    intro e b
    unfold settle
    split
    · next hr => exact absurd (hsub hr) (by simp)
    · rfl
  unfold finish
  split
  · next hr => exact absurd (hsub hr) (by simp)
  · next exec hr =>
      have hsettled : (runList settle exec (exec.surfaces.values.filter (·.dirty))).2 = none :=
        (runList_succeeds (P := fun _ => True) (fun e _ b _ => ⟨hsettle e b, trivial⟩) trivial).1
      split
      · next hlist =>
          rw [hlist] at hsettled
          simp at hsettled
      · next exec' hlist =>
          cases f.shown? with
          | none => rfl
          | some t =>
              dsimp only
              split
              · next hpresent => exact absurd (hsub hpresent) (by simp)
              · rfl

end Frame

/-! ## frames of a graph that was loaded -/

/-- A program that was expanded without errors and loaded renders every frame that has a
size and whose conditions have values: no texture is without storage, no program is
missing, and the workgroups of every pass can be told. -/
theorem clean_frame_succeeds {β : Type} [Backend β] (haccepts : AcceptsAll β) (p : Plan)
    {lookup : String → Option Descriptor} (overrides : List Graph.ShaderOverride)
    (hcatalog : ∀ op d, lookup op = some d →
      ∃ text origin file, CatalogFile.decode text origin = .ok file ∧ d ∈ file.effects)
    (hclean : (p.expand lookup overrides).errors = []) {e loaded e' : Executor β}
    (hload : e.load (p.expand lookup overrides) (some (p.expand lookup overrides).allocate) =
      (loaded, none))
    (honward : loaded.Onward e') (state : FrameState)
    (hwidth : 0 < (e'.frameState state).width) (hheight : 0 < (e'.frameState state).height)
    (hconditions : ∀ g, e'.current = some g → ∀ q ∈ g.passes, ∃ n : Int,
      q.times ((e'.frameState state).env.union (q.uniforms (e'.frameState state).env)) = .ok n) :
    (e'.frame state).2 = none := by
  have hsound : (p.expand lookup overrides).Sound := by
    refine Graph.sound_expand p (fun op d hd => ?_) overrides
    obtain ⟨text, origin, file, hfile, hmem⟩ := hcatalog op d hd
    exact CatalogFile.accepted_of_decode hfile hmem
  obtain ⟨g, hgraph, hholds⟩ := Executor.load_holds hload
  have hholds := hholds.of_retains honward.retains
  cases hbegin : e'.submit (.beginFrame (e'.frameState state)) with
  | mk e₁ r =>
      obtain rfl : r = none := (congrArg Prod.snd hbegin).symm.trans (haccepts _ _)
      have hserves : (Frame.opened e₁ g (e'.frameState state)).Serves :=
        ⟨hholds.of_retains (.submit hbegin), hgraph ▸ hsound, hgraph ▸ hclean, hwidth, hheight⟩
      rw [Executor.frame_eq hholds.live hholds.current hbegin]
      have hgroups := runList_succeeds (f := Frame.group) (l := Frame.stepGroups g.passes)
        (P := fun f : Frame β => f.Serves ∧ f.current = g ∧ f.env = (e'.frameState state).env)
        (fun f hf ps hps => Frame.Serves.group haccepts (hconditions g hholds.current)
          (fun q hq => ?_) hf)
        (s := Frame.opened e₁ g (e'.frameState state)) ⟨hserves, rfl, rfl⟩
      · cases hr :
            runList Frame.group (Frame.opened e₁ g (e'.frameState state))
                (Frame.stepGroups g.passes) with
        | mk f r =>
            rw [hr] at hgroups
            obtain rfl : r = none := hgroups.1
            exact Frame.finish_accepted haccepts f
      · have hflatten := List.mem_flatten_of_mem hps hq
        rwa [Frame.stepGroups, List.flatten_splitBy] at hflatten

/-! ## catalogs of one effect -/

/-- The effect of a catalog file that has only one. -/
def soloEffect (text : String) : Descriptor :=
  match (Document.read? text).bind CatalogFile.parts? with
  | some (space, flag, _, [some d]) => CatalogFile.adopt space flag d
  | _ => {}

/-- The catalog of such a file, whose effect is `b.f`. -/
def soloCatalog (text op : String) : Option Descriptor :=
  if op = "b.f" then some (soloEffect text) else none

theorem soloCatalog_eq {text : String} {d : Descriptor} (h : soloEffect text = d) :
    soloCatalog text = fun op => if op = "b.f" then some d else none := by
  funext op
  rw [soloCatalog, h]

/-- The characters of a text that is put together from two literals. -/
theorem toList_append_ofList (a b : List Char) :
    (String.ofList a ++ String.ofList b).toList = a ++ b := by
  rw [String.toList_append, String.toList_ofList, String.toList_ofList]

/-- What can be told from the effect of the file decides that the file is accepted. -/
theorem soloCatalog_decoded {text : String}
    (hfacts : (soloEffect text).name = "f" ∧ (soloEffect text).space = "b" ∧
      (soloEffect text).params.isEmpty = true ∧ (soloEffect text).passes.isEmpty = false ∧
      (soloEffect text).passes.zipIdx.findSome? (fun e => (soloEffect text).passFault? e.2 e.1) =
        none) :
    ∀ op d, soloCatalog text op = some d →
      ∃ text origin file, CatalogFile.decode text origin = .ok file ∧ d ∈ file.effects := by
  have hfault : (soloEffect text).fault? = none := by
    have hdot : "f".contains '.' = false := by cbv
    generalize soloEffect text = d at hfacts
    obtain ⟨hname, -, hparams, hsome, hpasses⟩ := hfacts
    rw [Descriptor.fault?, hname, Descriptor.args, List.isEmpty_iff.1 hparams, hsome, hdot, hpasses]
    rfl
  obtain ⟨hname, hspace, -⟩ := hfacts
  have hdecoded : ∃ file, CatalogFile.decode text "solo" = .ok file ∧
      soloEffect text ∈ file.effects := by
    unfold soloEffect at hname hspace hfault ⊢
    split at hname
    · next space flag enums d hread =>
        rw [hread] at hspace hfault
        obtain ⟨doc, hdoc, hparts⟩ := Option.bind_eq_some_iff.1 hread
        have hne : space ≠ "" := by
          rintro rfl
          simp [CatalogFile.adopt] at hspace
        exact ⟨_, CatalogFile.decode_single hdoc hparts hne hfault, List.mem_singleton_self _⟩
    · simp at hname
  intro op d hd
  unfold soloCatalog at hd
  split at hd
  · obtain ⟨file, hfile, hmem⟩ := hdecoded
    exact ⟨text, "solo", file, hfile, Option.some.inj hd ▸ hmem⟩
  · simp at hd

/-! ## a flat image -/

/-- A catalog file with one effect, of one pass that computes an image. -/
def flatText : String :=
  "\x7bnamespace: b, effects: [\x7bname: f, programs: \x7bm: \x7b\x7d\x7d, " ++
    "passes: [\x7bprogram: m, type: compute, outputs: \x7bo: outputTex\x7d\x7d]\x7d]\x7d"

def flatCatalog : String → Option Descriptor := soloCatalog flatText

theorem flat_decoded : ∀ op d, flatCatalog op = some d →
    ∃ text origin file, CatalogFile.decode text origin = .ok file ∧ d ∈ file.effects := by
  have hchars : flatText.toList = _ := toList_append_ofList _ _
  refine soloCatalog_decoded ?_
  rw [soloEffect, Document.read?, hchars]
  decide +kernel

/-- Two steps of the effect; the second one is written to a surface. -/
def flatPlan : Plan where
  steps := [{ op := "b.f", temp := 0 },
    { op := "b.f", source := some 0, temp := 1, out := some ⟨.output, 0⟩ }]

def flatGraph : Graph := flatPlan.expand flatCatalog

def flatStart : Executor Canvas := { backend := {}, width := 64, height := 32 }

def flatLoaded : Executor Canvas := (flatStart.load flatGraph (some flatGraph.allocate)).1

/-- The renderer after one frame and a change of its size. -/
def flatLater : Executor Canvas := ((flatLoaded.frame {}).1.resize 16 16).1

/-- What the file says about its effect, and what the renderer makes of it. -/
theorem flat_facts : flatGraph.errors = [] ∧
    (flatStart.load flatGraph (some flatGraph.allocate)).2 = none ∧
    (flatLoaded.current.any fun g => g.passes.all fun q => q.skip.isNone && q.run.isNone &&
      q.count.isNone) = true ∧
    0 < (flatLater.frameState {}).width ∧ 0 < (flatLater.frameState {}).height := by
  have hchars : flatText.toList = _ := toList_append_ofList _ _
  obtain ⟨d, hd⟩ : ∃ d, soloEffect flatText = d := ⟨_, rfl⟩
  rw [flatLater, flatLoaded, flatGraph, flatCatalog, soloCatalog_eq hd, ← hd, soloEffect,
    Document.read?, hchars]
  decide +kernel

/-- The second frame of the two steps, in another size than the first. -/
theorem flat_frame_succeeds :
    (flatPlan.expand flatCatalog).errors = [] ∧ flatLoaded.Onward flatLater ∧
    (flatLater.frame {}).2 = none := by
  obtain ⟨hclean, hnone, hplain, hwidth, hheight⟩ := flat_facts
  -- the renderers are opened by their equations, so that nothing is run again
  have hstate : (flatStart.load flatGraph (some flatGraph.allocate)).1 = flatLoaded := by
    rw [flatLoaded]
  have hload := Executor.load_eq hstate hnone
  have honward : flatLoaded.Onward flatLater := by
    rw [flatLater]
    exact .resize (.frame .refl {}) 16 16
  have hconditions : ∀ g, flatLater.current = some g → ∀ q ∈ g.passes, ∃ n : Int,
      q.times ((flatLater.frameState {}).env.union (q.uniforms (flatLater.frameState {}).env)) =
          .ok n := by
    intro g hg q hq
    rw [← honward.retains.current, hg, Option.any_some, List.all_eq_true] at hplain
    have hempty := hplain q hq
    simp only [Bool.and_eq_true, Option.isNone_iff_eq_none] at hempty
    obtain ⟨⟨hskip, hrun⟩, hcount⟩ := hempty
    refine ⟨1, ?_⟩
    simp only [LoadedPass.times, hskip, hrun, hcount]
    rfl
  exact ⟨hclean, honward,
    clean_frame_succeeds (fun _ _ => rfl) flatPlan [] flat_decoded hclean hload honward {} hwidth
      hheight hconditions⟩

end EffectChain
