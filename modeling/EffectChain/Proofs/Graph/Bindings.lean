import EffectChain.Proofs.Graph.Passes

/-!
# EffectChain.Proofs.Graph.Bindings

Which textures a graph speaks of.

If the textures that a step can bind are among some textures (`Step.Admits`), then every
texture of the graph and everything its passes are bound to is among them
(`within_expand`).
-/

namespace EffectChain

open EffectChain.Graph

/-- What a step can bind is among some textures: its outputs, what its effect declares, the
surface of its chain in the frame before, and the surfaces it is given. -/
structure Step.Admits (s : Step) (p : Plan) (d : Descriptor) (I : String → Prop) : Prop where
  outputs : ∀ last name, d.Yields name → I (Expander.outputId s last name)
  declared : ∀ name, (d.texture? name).isSome = true → I (textureId (nodeId s.temp) name)
  feedback : ∀ o, target? p.steps s.temp = some o → I (surfaceId o)
  arguments : ∀ name o, s.args.get? name = some (.ref o) → o.kind ≠ .temp → I (surfaceId o)

namespace Graph

/-! ## drafts -/

/-- Everything that a draft speaks of is among some textures. -/
structure Draft.Within (I : String → Prop) (draft : Draft) : Prop where
  textures : ∀ id, draft.graph.textures.contains id = true → I id
  passes : ∀ q ∈ draft.graph.passes, ∀ id ∈ q.inputs.values ++ q.outputs.values, I id
  flows : ∀ t f c id, draft.flow? t = some f → f.on c = some id → I id

namespace Draft.Within

variable {I : String → Prop} {draft : Draft}

/-- An admitted texture may be added. -/
theorem addTexture (h : draft.Within I) {id : String} (hid : I id) (spec : TextureSpec) :
    (draft.addTexture id spec).Within I := by
  refine ⟨fun a ha => ?_, h.passes, h.flows⟩
  have ha : (draft.graph.textures.insert id spec).contains a = true := ha
  rw [Table.contains_insert, Bool.or_eq_true, decide_eq_true_eq] at ha
  exact ha.elim (fun heq => heq ▸ hid) (h.textures a)

/-- A pass with admitted textures may be added. -/
theorem addPass (h : draft.Within I) {q : Pass}
    (hq : ∀ id ∈ q.inputs.values ++ q.outputs.values, I id) :
    (draft.addPass q).Within I := by
  refine ⟨h.textures, fun q' hq' => ?_, h.flows⟩
  rcases List.mem_append.1 hq' with hq' | hq'
  · exact h.passes q' hq'
  · exact List.mem_singleton.1 hq' ▸ hq

/-- An admitted flow may be set. -/
theorem setFlow (h : draft.Within I) (t : Nat) {f : Flow} (hf : ∀ c id, f.on c = some id → I id) :
    (draft.setFlow t f).Within I := by
  refine ⟨h.textures, h.passes, fun t' f' c id hflow hid => ?_⟩
  rw [Expander.flow?_setFlow] at hflow
  split at hflow
  · exact hf c id (Option.some.inj hflow ▸ hid)
  · exact h.flows t' f' c id hflow hid

end Draft.Within

namespace Expander

variable {I : String → Prop} {x : Expander} {draft : Draft} {s : Step} {d : Descriptor}
    {flow : Flow}

/-- An input comes from a texture that the step can bind, or from what steps have come to. -/
theorem Sourced.within {name id : String} {fresh : Bool}
    (h : Sourced x draft s d flow name id fresh) (hs : s.Admits x.plan d I)
    (hdraft : draft.Within I) (hflow : ∀ c id, flow.on c = some id → I id) : I id := by
  cases h with
  | feedback ho => exact hs.feedback _ ho
  | chain _ hc => exact hflow _ _ hc
  | surface hvalue hkind => exact hs.arguments _ _ hvalue hkind
  | result _ _ hf himage => exact hdraft.flows _ _ .image _ hf himage
  | own hd => exact hs.declared _ hd

/-- Inputs are bound to admitted textures. -/
theorem within_bindInputs (hs : s.Admits x.plan d I) (hdraft : draft.Within I)
    (hflow : ∀ c id, flow.on c = some id → I id) (place : Nat) (inputs : Table String) :
    (x.bindInputs s d flow place inputs draft).1.Within I ∧
      ∀ id ∈ (x.bindInputs s d flow place inputs draft).2.values, I id := by
  have hall : (x.bindInputs s d flow place inputs draft).1.Within I ∧
      ∀ a id, (x.bindInputs s d flow place inputs draft).2.get? a = some id → I id := by
    refine bindInputs_induct place inputs
      (P := fun _ draft' bound => draft'.Within I ∧ ∀ a id, bound.get? a = some id → I id)
      ⟨hdraft, by simp⟩ ?_ fun _ _ _ _ _ _ _ h => ⟨⟨h.1.textures, h.1.passes, h.1.flows⟩, h.2⟩
    intro _ draft' bound binding name id fresh _ hsource ⟨hdraft', hbound⟩
    have hid := (sourced_of_source? hsource).within hs hdraft hflow
    refine ⟨?_, fun a i hi => ?_⟩
    · cases fresh
      · exact hdraft'
      · exact hdraft'.addTexture hid _
    · rw [Table.get?_insert] at hi
      split at hi
      · exact Option.some.inj hi ▸ hid
      · exact hbound a i hi
  refine ⟨hall.1, fun id hid => ?_⟩
  obtain ⟨a, ha⟩ := Table.mem_values_iff.1 hid
  exact hall.2 a id ha

/-- What the passes of a step have written so far is among some textures. -/
structure Written.Within (I : String → Prop) (w : Written) : Prop where
  draft : w.draft.Within I
  result : ∀ c id, w.result.on c = some id → I id
  bound : ∀ a id, w.bound.get? a = some id → I id

/-- An output is bound to an admitted texture. -/
theorem Written.Within.bindOutput {w : Written} (h : w.Within I) (hs : s.Admits x.plan d I)
    (place : Nat) (last : Bool) (attachment name : String) :
    (bindOutput s d place last w attachment name).Within I := by
  by_cases hyields : d.Yields name
  swap
  · rw [Written.bindOutput_undeclared hyields]
    exact ⟨⟨h.draft.textures, h.draft.passes, h.draft.flows⟩, h.result, h.bound⟩
  have hid := hs.outputs last name hyields
  rcases Written.bindOutput_cases s d place last w attachment name with ⟨-, heq⟩
    | ⟨w', heq, hdraft, hbound, hresult, -⟩
  · rw [heq]
    exact ⟨⟨h.draft.textures, h.draft.passes, h.draft.flows⟩, h.result, h.bound⟩
  · rw [heq]
    refine ⟨?_, fun c i hi => ?_, fun a i hi => ?_⟩
    · rcases hdraft with ⟨hsame, -⟩ | ⟨spec, -, hadded⟩
      · exact hsame ▸ h.draft
      · exact hadded ▸ h.draft.addTexture hid spec
    · rw [hresult] at hi
      unfold Written.after at hi
      split at hi
      · rw [Flow.on_put] at hi
        split at hi
        · exact Option.some.inj hi ▸ hid
        · exact h.result c i hi
      · exact h.result c i hi
    · rw [hbound, Table.get?_insert] at hi
      split at hi
      · exact Option.some.inj hi ▸ hid
      · exact h.bound a i hi

/-- A pass binds admitted textures. -/
theorem Written.Within.pass {w : Written} (h : w.Within I) (hs : s.Admits x.plan d I)
    (hflow : ∀ c id, flow.on c = some id → I id) (uniforms : Table Value) (place : Nat)
    (p : EffectChain.Pass) :
    (x.pass s d flow uniforms w place p).Within I := by
  rw [pass_eq]
  dsimp only
  obtain ⟨hdraft, hinputs⟩ := within_bindInputs hs h.draft hflow place p.inputs
  generalize x.bindInputs s d flow place p.inputs w.draft = r at hdraft hinputs ⊢
  have hall : (bindAll s d place p.outputs { w with draft := r.1 }).Within I :=
    List.foldlRecOn (motive := fun w : Written => w.Within I) p.outputs.entries (fun w e =>
      Expander.bindOutput s d place (place + 1 = d.passes.length) w e.1 e.2)
      ⟨hdraft, h.result, by simp⟩ fun w hw e _ => hw.bindOutput hs place _ e.1 e.2
  refine ⟨hall.draft.addPass fun id hid => ?_, hall.result, hall.bound⟩
  rcases List.mem_append.1 hid with hid | hid
  · exact hinputs id hid
  · obtain ⟨a, ha⟩ := Table.mem_values_iff.1 hid
    exact hall.bound a id ha

/-! ## steps -/

/-- What an effect declares is among the textures that its step can bind. -/
theorem within_declare (hs : s.Admits x.plan d I) (hdraft : draft.Within I) :
    (x.declare s d draft).Within I := by
  have hprograms : ((d.programs.entries.foldl (fun draft e =>
      draft.addProgram (x.program s e.1 e.2).1 (x.program s e.1 e.2).2) draft)).Within I :=
    List.foldlRecOn (motive := Draft.Within I) _ _ hdraft fun _ h _ _ =>
      ⟨h.textures, h.passes, h.flows⟩
  refine List.foldlRecOn (motive := Draft.Within I) (d.textures.entries ++ d.volumes.entries)
      (fun draft e =>
    draft.addTexture (textureId (nodeId s.temp) e.1) e.2) hprograms fun _ h e he =>
      h.addTexture (hs.declared e.1 ?_) _
  rw [Descriptor.texture?]
  rcases List.mem_append.1 he with he | he
  · simp [Table.mem_entries_iff.1 he]
  · simp [Table.mem_entries_iff.1 he]

/-- Finishing a step binds admitted textures. -/
theorem within_finish (hdraft : draft.Within I) (hs : ∀ o, s.out = some o → I (surfaceId o))
    {out : Flow} (hout : ∀ c id, out.on c = some id → I id) (direct : Bool) :
    (finish s out out.image direct draft).Within I := by
  rcases finish_cases s out out.image direct draft with ⟨-, heq⟩
    | ⟨o, ho, ⟨-, heq⟩ | ⟨-, heq⟩ | ⟨id, himage, heq⟩⟩ <;>
    rw [heq]
  · exact hdraft
  · have hadded := hdraft.addTexture (hs o ho) .surface
    exact ⟨hadded.textures, hadded.passes, hadded.flows⟩
  · exact hdraft.addTexture (hs o ho) .surface
  · have hadded := hdraft.addTexture (hs o ho) .surface
    have hprogram : ((draft.addTexture (surfaceId o) .surface).addProgram "blit" copyShader).Within
        I :=
      ⟨hadded.textures, hadded.passes, hadded.flows⟩
    refine (hprogram.addPass fun i hi => ?_).setFlow _ fun c i hi => ?_
    · have hvalues : (copy s out id (surfaceId o)).inputs.values ++
        (copy s out id (surfaceId o)).outputs.values =
        [id, surfaceId o] := rfl
      rw [hvalues] at hi
      rcases List.mem_pair.1 hi with rfl | rfl
      · exact hout .image _ himage
      · exact hs o ho
    · have hi : (out.put .image (surfaceId o)).on c = some i := hi
      rw [Flow.on_put] at hi
      split at hi
      · exact Option.some.inj hi ▸ hs o ho
      · exact hout c i hi

/-- A step binds admitted textures. -/
theorem within_step (hdraft : draft.Within I)
    (hs : ∀ d, x.lookup s.op = some d → s.Admits x.plan d I)
    (hout : ∀ o, s.out = some o → I (surfaceId o)) : (x.step draft s).Within I := by
  have hinput : ∀ c id, (input draft s).on c = some id → I id := by
    intro c id hid
    obtain ⟨t, f, -, hflow, hon⟩ := on_input hid
    exact hdraft.flows t f c id hflow hon
  cases hd : x.lookup s.op with
  | none =>
      rw [step_unknown hd]
      have herror : (draft.addError s (.unknownEffect s.op)).Within I :=
        ⟨hdraft.textures, hdraft.passes, hdraft.flows⟩
      exact within_finish (herror.setFlow _ hinput) hout hinput _
  | some d =>
      rw [step_known hd]
      have hall : (x.runAll s d draft).Within I := by
        refine runAll_induct (P := fun _ w => w.Within I) ⟨within_declare (hs d hd) hdraft,
          fun c id hid => ?_, by simp⟩
          fun w i p _ hw => hw.pass (hs d hd) hinput _ i p
        refine hinput c id ?_
        cases c with
        | image => exact hid
        | volume => exact (Flow.on_addParams (input draft s) d s .volume).symm.trans hid
        | geometry => exact (Flow.on_addParams (input draft s) d s .geometry).symm.trans hid
      exact within_finish (hall.draft.setFlow _ hall.result) hout hall.result _

end Expander

/-! ## plans -/

/-- Every texture of the graph of a plan, and everything that its passes are bound to, is among
some textures if what the steps of the plan can bind and write to is. -/
theorem within_expand {p : Plan} {lookup : String → Option Descriptor} {I : String → Prop}
    (hrender : I (surfaceId p.renderSurface))
    (hsteps : ∀ s ∈ p.steps, (∀ d, lookup s.op = some d → s.Admits p d I) ∧ ∀ o, s.out = some o →
      I (surfaceId o))
    (overrides : List ShaderOverride) :
    (∀ id, (p.expand lookup overrides).textures.contains id = true → I id) ∧
      ∀ q ∈ (p.expand lookup overrides).passes, ∀ id ∈ q.inputs.values ++ q.outputs.values,
      I id := by
  have hwithin : (p.draftAfter lookup overrides p.steps).Within I := by
    refine Plan.draftAfter_induct (P := fun _ draft => draft.Within I) ⟨fun id hid => ?_,
      by simp [Plan.draftAfter], ?_⟩
      (fun done s draft hpre h => ?_) (List.prefix_refl _)
    · have hid : (Table.empty.insert (surfaceId p.renderSurface) TextureSpec.surface).contains id =
        true := hid
      rw [Table.contains_insert, Bool.or_eq_true, decide_eq_true_eq] at hid
      rcases hid with rfl | hid
      · exact hrender
      · simp [Table.contains] at hid
    · intro t f c id hflow
      simp [Plan.draftAfter, Draft.flow?] at hflow
    · have hs := hsteps s (hpre.subset (by simp))
      exact Expander.within_step h hs.1 hs.2
  exact ⟨hwithin.textures, hwithin.passes⟩

end Graph

end EffectChain
