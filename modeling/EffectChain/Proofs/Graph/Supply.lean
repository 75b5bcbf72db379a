import EffectChain.Proofs.Graph.Expansion

/-!
# EffectChain.Proofs.Graph.Supply

A graph that was expanded without errors has what its passes need (`sound_expand`):
their programs, a texture for each surface they bind, at least one output, and sizes
from which the number of workgroups can be told.

The step lemmas are about drafts (`Draft.Sound`), which have all this but for the
outputs: a draft with errors may have a pass without any.
-/

namespace EffectChain

namespace Graph

/-- A texture that keeps its content from frame to frame is one of the graph. -/
def Knows (g : Graph) (id : String) : Prop := isPersistent id = true → g.textures.contains id = true

/-- What a graph has for one of its passes. -/
structure Supplies (g : Graph) (p : Pass) : Prop where
  program : g.programs.contains p.program = true
  inputs : ∀ name id, p.inputs.get? name = some id → g.Knows id
  outputs : ∀ name id, p.outputs.get? name = some id → g.Knows id
  written : g.errors = [] → p.outputs.entries ≠ []
  workgroup : ∃ x y z : Int, p.workgroup = [x, y, z] ∧ 1 ≤ x ∧ 1 ≤ y ∧ 1 ≤ z

/-- What a graph has for all of its passes, and the sizes of its textures. -/
structure Sound (g : Graph) : Prop where
  passes : ∀ p ∈ g.passes, g.Supplies p
  sized : ∀ id spec, g.textures.get? id = some spec → spec.Sized

/-! ## graphs that grow -/

/-- The second graph has the programs, the textures and the errors of the first. -/
structure Grows (g g' : Graph) : Prop where
  programs : ∀ id, g.programs.contains id = true → g'.programs.contains id = true
  textures : ∀ id, g.textures.contains id = true → g'.textures.contains id = true
  errors : g'.errors = [] → g.errors = []

variable {g g' g'' : Graph}

theorem Grows.refl (g : Graph) : Grows g g := ⟨fun _ h => h, fun _ h => h, fun h => h⟩

theorem Grows.trans (h : Grows g g') (h' : Grows g' g'') : Grows g g'' :=
  ⟨fun id hid => h'.programs id (h.programs id hid), fun id hid =>
    h'.textures id (h.textures id hid),
    fun herr => h.errors (h'.errors herr)⟩

theorem Knows.mono (h : Grows g g') {id : String} (hid : g.Knows id) : g'.Knows id :=
  fun hp => h.textures id (hid hp)

/-- A pass that is supplied stays so when the graph grows. -/
theorem Supplies.mono (h : Grows g g') {p : Pass} (hp : g.Supplies p) : g'.Supplies p where
  program := h.programs _ hp.program
  inputs := fun name id hid => (hp.inputs name id hid).mono h
  outputs := fun name id hid => (hp.outputs name id hid).mono h
  written := fun herr => hp.written (h.errors herr)
  workgroup := hp.workgroup

/-- The graph knows what a step hands on. -/
def Flow.KnownTo (g : Graph) (f : Flow) : Prop := ∀ c id, f.on c = some id → g.Knows id

theorem Flow.KnownTo.mono (h : Grows g g') {f : Flow} (hf : f.KnownTo g) : f.KnownTo g' :=
  fun c id hid => (hf c id hid).mono h

/-- A known image may be put into a flow. -/
theorem Flow.KnownTo.put {f : Flow} (hf : f.KnownTo g) (c : Channel) {id : String}
    (hid : g.Knows id) :
    (f.put c id).KnownTo g := by
  intro c' id' h
  rw [Flow.on_put] at h
  split at h
  · exact Option.some.inj h ▸ hid
  · exact hf c' id' h

/-! ## drafts -/

namespace Draft

/-- What holds of a draft between any two of its changes. -/
structure Sound (d : Draft) : Prop where
  graph : d.graph.Sound
  flows : ∀ t f, d.flow? t = some f → f.KnownTo d.graph

variable {d : Draft}

/-- A new texture lets the graph grow. -/
theorem grows_addTexture (d : Draft) (id : String) (spec : TextureSpec) :
    Grows d.graph (d.addTexture id spec).graph := by
  refine ⟨fun _ h => h, fun a ha => ?_, fun h => h⟩
  show (d.graph.textures.insert id spec).contains a = true
  simp [ha]

/-- A new texture is known. -/
theorem knows_addTexture (d : Draft) (id : String) (spec : TextureSpec) :
    (d.addTexture id spec).graph.Knows id := by
  intro _
  show (d.graph.textures.insert id spec).contains id = true
  simp

theorem grows_addError (d : Draft) (step : Step) (p : Problem) :
    Grows d.graph (d.addError step p).graph :=
  ⟨fun _ h => h, fun _ h => h, fun h => by simp [addError] at h⟩

/-- A new program lets the graph grow. -/
theorem grows_addProgram (d : Draft) (id : String) (s : Shader) :
    Grows d.graph (d.addProgram id s).graph := by
  refine ⟨fun a ha => ?_, fun _ h => h, fun h => h⟩
  show (d.graph.programs.insert id s).contains a = true
  simp [ha]

theorem grows_addPass (d : Draft) (p : Pass) : Grows d.graph (d.addPass p).graph :=
  ⟨fun _ h => h, fun _ h => h, fun h => h⟩

/-- A texture with a size keeps the draft sound. -/
theorem Sound.addTexture (h : d.Sound) (id : String) {spec : TextureSpec} (hspec : spec.Sized) :
    (d.addTexture id spec).Sound := by
  have hgrows := grows_addTexture d id spec
  refine ⟨⟨fun p hp => (h.graph.passes p hp).mono hgrows, fun a s hs => ?_⟩,
    fun t f hf => (h.flows t f hf).mono hgrows⟩
  have hs : (d.graph.textures.insert id spec).get? a = some s := hs
  rw [Table.get?_insert] at hs
  split at hs
  · exact Option.some.inj hs ▸ hspec
  · exact h.graph.sized a s hs

theorem Sound.addError (h : d.Sound) (step : Step) (p : Problem) : (d.addError step p).Sound := by
  have hgrows := grows_addError d step p
  exact ⟨⟨fun p hp => (h.graph.passes p hp).mono hgrows, h.graph.sized⟩,
    fun t f hf => (h.flows t f hf).mono hgrows⟩

theorem Sound.addProgram (h : d.Sound) (id : String) (s : Shader) : (d.addProgram id s).Sound := by
  have hgrows := grows_addProgram d id s
  exact ⟨⟨fun p hp => (h.graph.passes p hp).mono hgrows, h.graph.sized⟩,
    fun t f hf => (h.flows t f hf).mono hgrows⟩

/-- A supplied pass keeps the draft sound. -/
theorem Sound.addPass (h : d.Sound) {p : Pass} (hp : d.graph.Supplies p) : (d.addPass p).Sound := by
  have hgrows := grows_addPass d p
  refine ⟨⟨fun q hq => ?_, h.graph.sized⟩, fun t f hf => (h.flows t f hf).mono hgrows⟩
  rcases List.mem_append.1 hq with hq | hq
  · exact (h.graph.passes q hq).mono hgrows
  · exact List.mem_singleton.1 hq ▸ hp.mono hgrows

/-- A known flow keeps the draft sound. -/
theorem Sound.setFlow (h : d.Sound) (t : Nat) {f : Flow} (hf : f.KnownTo d.graph) :
    (d.setFlow t f).Sound := by
  refine ⟨h.graph, fun t' f' hf' => ?_⟩
  have hf' : ((t, f) :: d.flows).lookup t' = some f' := hf'
  rw [List.lookup_cons] at hf'
  split at hf'
  · exact Option.some.inj hf' ▸ hf
  · exact h.flows t' f' hf'

end Draft

/-! ## one pass -/

namespace Expander

variable {x : Expander} {step : Step} {d : Descriptor}

/-- The graph has the programs and the textures that an effect declares. -/
structure Declared (x : Expander) (step : Step) (d : Descriptor) (g : Graph) : Prop where
  programs : ∀ name s, d.programs.get? name = some s →
    g.programs.contains (x.program step name s).1 = true
  textures : ∀ name, (d.texture? name).isSome = true →
    g.textures.contains (textureId (nodeId step.temp) name) = true

theorem Declared.mono {g g' : Graph} (hg : Declared x step d g) (h : Grows g g') :
    Declared x step d g' :=
  ⟨fun name s hs => h.programs _ (hg.programs name s hs), fun name hname =>
    h.textures _ (hg.textures name hname)⟩

/-- An input is a texture that the graph knows, or gets with it. -/
theorem Sourced.known {draft : Draft} {flow : Flow} {name id : String} {fresh : Bool}
    (h : Sourced x draft step d flow name id fresh) (hdraft : draft.Sound)
    (hflow : flow.KnownTo draft.graph) (hdeclared : Declared x step d draft.graph) :
    fresh = true ∨ draft.graph.Knows id := by
  cases h with
  | feedback _ => exact .inl rfl
  | chain _ hc => exact .inr (hflow _ _ hc)
  | surface _ _ => exact .inl rfl
  | result _ _ hf himage => exact .inr (hdraft.flows _ _ hf .image _ himage)
  | own hd => exact .inr fun _ => hdeclared.textures _ hd

/-- The inputs of a pass are textures that the graph knows. -/
theorem bindInputs_known {draft : Draft} (hdraft : draft.Sound) {flow : Flow}
    (hflow : flow.KnownTo draft.graph) (hdeclared : Declared x step d draft.graph) (place : Nat)
    (inputs : Table String) {r : Draft × Table String}
    (hr : x.bindInputs step d flow place inputs draft = r) :
    r.1.Sound ∧ Grows draft.graph r.1.graph ∧ ∀ name id, r.2.get? name = some id →
    r.1.graph.Knows id := by
  subst hr
  refine bindInputs_induct place inputs
    (P := fun _ draft' bound => draft'.Sound ∧ Grows draft.graph draft'.graph ∧
      ∀ name id, bound.get? name = some id → draft'.graph.Knows id)
    ⟨hdraft, .refl _, by simp⟩ ?_ ?_
  · intro _ draft' bound binding name id fresh _ hs ⟨hsound, hgrows, hbound⟩
    have hknown := (sourced_of_source? hs).known hdraft hflow hdeclared
    have hget : ∀ {g : Graph}, Grows draft'.graph g → g.Knows id → ∀ a i,
        (bound.insert binding id).get? a = some i → g.Knows i := by
      intro g hg hid a i hi
      rw [Table.get?_insert] at hi
      split at hi
      · exact Option.some.inj hi ▸ hid
      · exact (hbound a i hi).mono hg
    cases fresh with
    | true =>
        have hadded := Draft.grows_addTexture draft' id .surface
        exact ⟨hsound.addTexture id .surface, hgrows.trans hadded,
          hget hadded (Draft.knows_addTexture draft' id .surface)⟩
    | false =>
        have hid := (hknown.resolve_left (by simp)).mono hgrows
        exact ⟨hsound, hgrows, hget (.refl _) hid⟩
  · intro _ draft' bound binding name _ _ ⟨hsound, hgrows, hbound⟩
    have hadded := Draft.grows_addError draft' step (.unresolvedInput place name)
    exact ⟨hsound.addError step _, hgrows.trans hadded, fun a i hi => (hbound a i hi).mono hadded⟩

/-- What holds while the passes of a step are expanded over a draft. -/
structure Written.Sound (g : Graph) (w : Written) : Prop where
  draft : w.draft.Sound
  grows : Grows g w.draft.graph
  result : w.result.KnownTo w.draft.graph
  bound : ∀ name id, w.bound.get? name = some id → w.draft.graph.Knows id

variable {g : Graph} {w : Written}

/-- An output is bound to a texture that the graph knows; it is bound unless there is an
error. -/
theorem Written.Sound.bindOutput (h : w.Sound g) (hdeclared : Declared x step d g) (place : Nat)
    (last : Bool) (attachment name : String) {w' : Written}
    (hw' : bindOutput step d place last w attachment name = w') :
    w'.Sound g ∧ Grows w.draft.graph w'.draft.graph ∧
      (w'.draft.graph.errors = [] → w'.bound.contains attachment = true ∧
        ∀ a, w.bound.contains a = true → w'.bound.contains a = true) := by
  rcases Written.bindOutput_cases step d place last w attachment name with ⟨-, heq⟩ |
    ⟨w₁, heq, hdraft, hbound, hresult, -⟩
  · rw [hw'] at heq
    rw [heq]
    have hadded := Draft.grows_addError w.draft step (.undeclaredTexture place name)
    exact ⟨⟨h.draft.addError step _, h.grows.trans hadded, h.result.mono hadded,
      fun a i hi => (h.bound a i hi).mono hadded⟩, hadded,
        fun herr => by simp [Draft.addError] at herr⟩
  · obtain rfl : w' = w₁ := hw'.symm.trans heq
    have hgrows : w'.draft.Sound ∧ Grows w.draft.graph w'.draft.graph ∧
        w'.draft.graph.Knows (outputId step last name) := by
      rcases hdraft with ⟨hsame, hname, hid⟩ | ⟨spec, hspec, hadded⟩
      · rw [hsame, hid]
        exact ⟨h.draft, .refl _, fun _ => h.grows.textures _ (hdeclared.textures name hname)⟩
      · rw [hadded]
        exact ⟨h.draft.addTexture _ hspec.sized, Draft.grows_addTexture _ _ _,
          Draft.knows_addTexture _ _ _⟩
    obtain ⟨hsound, hgrows, hid⟩ := hgrows
    refine ⟨⟨hsound, h.grows.trans hgrows, ?_, ?_⟩, hgrows, fun _ => ?_⟩
    · rw [hresult]
      unfold Written.after
      split
      · exact (h.result.mono hgrows).put _ hid
      · exact h.result.mono hgrows
    · intro a i hi
      rw [hbound, Table.get?_insert] at hi
      split at hi
      · exact Option.some.inj hi ▸ hid
      · exact (h.bound a i hi).mono hgrows
    · rw [hbound]
      exact ⟨by simp, fun a ha => by simp [ha]⟩

/-- The outputs of a pass are bound to textures that the graph knows, all of them unless
there is an error. -/
theorem Written.Sound.bindAll (h : w.Sound g) (hdeclared : Declared x step d g) (place : Nat)
    (outputs : Table String) {w' : Written} (hw' : bindAll step d place outputs w = w') :
    w'.Sound g ∧ Grows w.draft.graph w'.draft.graph ∧
      (w'.draft.graph.errors = [] → ∀ e ∈ outputs.entries, w'.bound.contains e.1 = true) := by
  have hall : ∀ (es : List (String × String)) (w : Written), w.Sound g →
      ∀ w', es.foldl (fun w e =>
        Expander.bindOutput step d place (place + 1 = d.passes.length) w e.1 e.2) w = w' →
      w'.Sound g ∧ Grows w.draft.graph w'.draft.graph ∧
        (w'.draft.graph.errors = [] → (∀ e ∈ es, w'.bound.contains e.1 = true) ∧
          ∀ a, w.bound.contains a = true → w'.bound.contains a = true) := by
    intro es
    induction es with
    | nil =>
        rintro w h w' rfl
        exact ⟨h, .refl _, fun _ => ⟨by simp, fun _ ha => ha⟩⟩
    | cons e es ih =>
        rintro w h w' hw'
        obtain ⟨h₁, hgrows₁, hbound₁⟩ :=
          h.bindOutput hdeclared place (place + 1 = d.passes.length) e.1 e.2 rfl
        obtain ⟨h₂, hgrows₂, hbound₂⟩ := ih _ h₁ w' hw'
        refine ⟨h₂, hgrows₁.trans hgrows₂, fun herr => ?_⟩
        obtain ⟨hfirst, hkept⟩ := hbound₁ (hgrows₂.errors herr)
        obtain ⟨hrest, hkept'⟩ := hbound₂ herr
        refine ⟨fun e' he' => ?_, fun a ha => hkept' a (hkept a ha)⟩
        rcases List.mem_cons.1 he' with rfl | he'
        · exact hkept' _ hfirst
        · exact hrest e' he'
  have hempty : ({ w with bound := {} } : Written).Sound g := ⟨h.draft, h.grows, h.result, by simp⟩
  obtain ⟨h', hgrows, hbound⟩ := hall outputs.entries _ hempty w' hw'
  exact ⟨h', hgrows, fun herr => (hbound herr).1⟩

/-- A pass of an accepted effect finds what it needs. -/
theorem Written.Sound.pass (h : w.Sound g) (hd : d.Accepted) (hdeclared : Declared x step d g)
    {input : Flow} (hinput : input.KnownTo g) (uniforms : Table Value) (place : Nat)
    {p : EffectChain.Pass} (hp : p ∈ d.passes) :
    (x.pass step d input uniforms w place p).Sound g := by
  rw [pass_eq]
  dsimp only
  generalize hr : x.bindInputs step d input place p.inputs w.draft = r
  obtain ⟨hsound, hgrows, hinputs⟩ :=
    bindInputs_known h.draft (hinput.mono h.grows) (hdeclared.mono h.grows) place p.inputs hr
  have hbase : ({ w with draft := r.1 } : Written).Sound g :=
    ⟨hsound, h.grows.trans hgrows, h.result.mono hgrows, fun a i hi => (h.bound a i hi).mono hgrows⟩
  generalize hw' : Expander.bindAll step d place p.outputs { w with draft := r.1 } = w'
  obtain ⟨h', hgrows', hbound⟩ := hbase.bindAll hdeclared place p.outputs hw'
  have hsupplies : w'.draft.graph.Supplies (x.made step d uniforms place p r.2 w'.bound) := by
    refine ⟨?_, fun a i hi => (hinputs a i hi).mono hgrows', h'.bound, fun herr hempty => ?_, ?_⟩
    · obtain ⟨s, hs⟩ := Table.contains_iff.1 (hd.program p hp)
      have hprogram : (x.made step d uniforms place p r.2 w'.bound).program =
          (x.program step p.program s).1 := by
        simp [made, hs]
      rw [hprogram]
      exact h'.grows.programs _ (hdeclared.programs _ _ hs)
    · obtain ⟨e, es, hentries⟩ := List.exists_cons_of_ne_nil (hd.outputs p hp)
      obtain ⟨i, hi⟩ := Table.contains_iff.1 (hbound herr e (by simp [hentries]))
      have hmem := Table.mem_entries_iff.2 hi
      have hempty : w'.bound.entries = [] := hempty
      rw [hempty] at hmem
      simp at hmem
    · have hsize : ∀ i : Nat, 1 ≤ p.workgroup.getD i 1 := by
        intro i
        rw [List.getD_eq_getElem?_getD]
        cases hi : p.workgroup[i]? with
        | none => simp
        | some n => exact hd.workgroup p hp n (List.mem_of_getElem? hi)
      exact ⟨_, _, _, rfl, hsize 0, hsize 1, hsize 2⟩
  have hadded := Draft.grows_addPass w'.draft (x.made step d uniforms place p r.2 w'.bound)
  exact ⟨h'.draft.addPass hsupplies, h'.grows.trans hadded, h'.result.mono hadded,
    fun a i hi => (h'.bound a i hi).mono hadded⟩

end Expander

/-! ## one step -/

namespace Draft

variable {x : Expander} {s : Step} {d : Descriptor} {draft : Draft}

open Expander

/-- The graph gets what an effect declares. -/
theorem Sound.declare (h : draft.Sound) (hd : d.Accepted) (x : Expander) (s : Step) :
    (x.declare s d draft).Sound ∧ Grows draft.graph (x.declare s d draft).graph ∧
      Declared x s d (x.declare s d draft).graph := by
  have hprograms : ∀ (es : List (String × Shader)) (draft : Draft), draft.Sound →
      ∀ draft', es.foldl (fun draft e =>
        draft.addProgram (x.program s e.1 e.2).1 (x.program s e.1 e.2).2) draft = draft' →
      draft'.Sound ∧ Grows draft.graph draft'.graph ∧
        ∀ e ∈ es, draft'.graph.programs.contains (x.program s e.1 e.2).1 = true := by
    intro es
    induction es with
    | nil =>
        rintro draft h _ rfl
        exact ⟨h, .refl _, by simp⟩
    | cons e es ih =>
        rintro draft h draft' hdraft'
        obtain ⟨h', hgrows, hes⟩ :=
          ih _ (h.addProgram (x.program s e.1 e.2).1 (x.program s e.1 e.2).2) draft' hdraft'
        refine ⟨h', (grows_addProgram _ _ _).trans hgrows, fun e' he' => ?_⟩
        rcases List.mem_cons.1 he' with rfl | he'
        · refine hgrows.programs _ ?_
          show (draft.graph.programs.insert _ _).contains _ = true
          simp
        · exact hes e' he'
  have htextures : ∀ (es : List (String × TextureSpec)), (∀ e ∈ es, e.2.Sized) → ∀ draft : Draft,
      draft.Sound →
      ∀ draft', es.foldl (fun draft e =>
        draft.addTexture (textureId (nodeId s.temp) e.1) e.2) draft = draft' →
      draft'.Sound ∧ Grows draft.graph draft'.graph ∧
        ∀ e ∈ es, draft'.graph.textures.contains (textureId (nodeId s.temp) e.1) = true := by
    intro es
    induction es with
    | nil =>
        rintro _ draft h _ rfl
        exact ⟨h, .refl _, by simp⟩
    | cons e es ih =>
        rintro hes draft h draft' hdraft'
        obtain ⟨h', hgrows, hrest⟩ := ih (fun e he => hes e (List.mem_cons_of_mem _ he)) _
          (h.addTexture (textureId (nodeId s.temp) e.1) (hes e List.mem_cons_self)) draft' hdraft'
        refine ⟨h', (grows_addTexture _ _ _).trans hgrows, fun e' he' => ?_⟩
        rcases List.mem_cons.1 he' with rfl | he'
        · refine hgrows.textures _ ?_
          show (draft.graph.textures.insert _ _).contains _ = true
          simp
        · exact hrest e' he'
  obtain ⟨h₁, hgrows₁, hmem₁⟩ := hprograms d.programs.entries draft h _ rfl
  obtain ⟨h₂, hgrows₂, hmem₂⟩ := htextures (d.textures.entries ++ d.volumes.entries)
    (fun e he => hd.sized he) _ h₁ _ rfl
  refine ⟨h₂, hgrows₁.trans hgrows₂, ⟨fun name sh hsh => ?_, fun name hname => ?_⟩⟩
  · exact hgrows₂.programs _ (hmem₁ (name, sh) (Table.mem_entries_iff.2 hsh))
  · obtain ⟨spec, hspec⟩ := Option.isSome_iff_exists.1 hname
    refine hmem₂ (name, spec) (List.mem_append.2 ?_)
    rcases Option.or_eq_some_iff.1 hspec with hs | ⟨-, hs⟩
    · exact .inl (Table.mem_entries_iff.2 hs)
    · exact .inr (Table.mem_entries_iff.2 hs)

/-- What comes down the chain is known. -/
theorem Sound.input (h : draft.Sound) (s : Step) :
    (Expander.input draft s).KnownTo draft.graph := by
  unfold Expander.input
  cases hf : s.source.bind draft.flow? with
  | none =>
      intro c id hid
      cases c <;> simp [Flow.on] at hid
  | some f =>
      obtain ⟨t, -, ht⟩ := Option.bind_eq_some_iff.1 hf
      exact h.flows t f ht

/-- Bringing the result of a step to its target keeps a draft sound. -/
theorem Sound.finish (h : draft.Sound) {out : Flow} (hout : out.KnownTo draft.graph) (s : Step)
    (direct : Bool) :
    (Expander.finish s out out.image direct draft).Sound := by
  rcases finish_cases s out out.image direct draft with ⟨-, heq⟩
    | ⟨o, -, ⟨-, heq⟩ | ⟨-, heq⟩ | ⟨id, himage, heq⟩⟩ <;>
    rw [heq]
  · exact h
  · exact (h.addTexture (surfaceId o) .surface).addError s _
  · exact h.addTexture (surfaceId o) .surface
  · have htarget := h.addTexture (surfaceId o) .surface
    have hgrows := grows_addTexture draft (surfaceId o) .surface
    have hknows := knows_addTexture draft (surfaceId o) .surface
    generalize draft.addTexture (surfaceId o) .surface = draft' at *
    have hblit := grows_addProgram draft' "blit" copyShader
    have hsound := htarget.addProgram "blit" copyShader
    have himage : (draft'.addProgram "blit" copyShader).graph.Knows id :=
      ((hout .image id himage).mono hgrows).mono hblit
    have hknows := hknows.mono hblit
    refine (hsound.addPass ⟨?_, ?_, ?_, ?_, 1, 1, 1, rfl, by decide, by decide, by decide⟩).setFlow
      _ ?_
    · show (draft'.graph.programs.insert "blit" copyShader).contains "blit" = true
      simp
    · intro name id' hid
      have hid : (Table.empty.insert "src" id).get? name = some id' := hid
      rw [Table.get?_insert] at hid
      split at hid
      · exact Option.some.inj hid ▸ himage
      · simp at hid
    · intro name id' hid
      have hid : (Table.empty.insert "color" (surfaceId o)).get? name = some id' := hid
      rw [Table.get?_insert] at hid
      split at hid
      · exact Option.some.inj hid ▸ hknows
      · simp at hid
    · intro _
      simp [copy, Table.empty, Table.insert, Table.insertEntry]
    · exact ((hout.mono hgrows).mono hblit).put .image hknows

/-- Every step keeps a draft sound. -/
theorem Sound.step (h : draft.Sound) (hlookup : ∀ op d, x.lookup op = some d → d.Accepted)
    (s : Step) :
    (x.step draft s).Sound := by
  cases hd : x.lookup s.op with
  | none =>
      unfold Expander.step
      rw [hd]
      dsimp only
      have herror := h.addError s (.unknownEffect s.op)
      have hinput := (h.input s).mono (grows_addError draft s (.unknownEffect s.op))
      exact (herror.setFlow s.temp hinput).finish hinput s false
  | some d =>
      have haccepted := hlookup s.op d hd
      rw [step_known hd]
      obtain ⟨hsound, hgrows, hdeclared⟩ := h.declare haccepted x s
      have hinput := (h.input s).mono hgrows
      have hflow : ((Expander.input draft s).addParams d s).KnownTo (x.declare s d draft).graph :=
        fun c id hid => hinput c id (by rwa [Flow.on_addParams] at hid)
      have hall : (x.runAll s d draft).Sound (x.declare s d draft).graph := by
        refine runAll_induct (P := fun _ w => w.Sound (x.declare s d draft).graph) ⟨hsound, .refl _,
          ?_, by simp⟩ ?_
        · intro c id hid
          cases c with
          | image => exact hinput .image id hid
          | volume => exact hflow .volume id hid
          | geometry => exact hflow .geometry id hid
        · intro w i p hp hw
          exact hw.pass haccepted hdeclared hinput _ i (List.mem_of_getElem? hp)
      exact (hall.draft.setFlow s.temp hall.result).finish hall.result s _

end Draft

/-! ## plans -/

/-- A graph over accepted declarations has what its passes need. -/
theorem sound_expand (p : Plan) {lookup : String → Option Descriptor}
    (hlookup : ∀ op d, lookup op = some d → d.Accepted) (overrides : List ShaderOverride) :
    (p.expand lookup overrides).Sound := by
  have hall : ∀ (steps : List Step) (draft : Draft), draft.Sound →
      (steps.foldl (Expander.step ⟨p, lookup, overrides⟩) draft).Sound := by
    intro steps
    induction steps with
    | nil => exact fun _ h => h
    | cons s steps ih => exact fun draft h => ih _ (h.step hlookup s)
  refine (hall p.steps _ ⟨⟨by simp, fun id spec hspec => ?_⟩, by simp [Draft.flow?]⟩).graph
  have hspec : (Table.empty.insert (surfaceId p.renderSurface) TextureSpec.surface).get? id =
    some spec := hspec
  rw [Table.get?_insert] at hspec
  split at hspec
  · exact Option.some.inj hspec ▸ .surface
  · simp at hspec

end Graph

end EffectChain
