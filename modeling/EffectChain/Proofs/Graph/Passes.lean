import EffectChain.Proofs.Graph.Dataflow

/-!
# EffectChain.Proofs.Graph.Passes

The passes of a graph by the steps of its plan, whether or not there are errors.

Every step adds its passes behind those of the steps before it: one for each pass of its
effect, in their order, and perhaps a copy to the surface it is written to
(`Expander.StepPasses`).  When the steps have numbers of their own, what a step has added is
what belongs to it (`Graph.passesOf`).

* `Expander.ran_runAll` — what has come of the passes of an effect, and when one of them has
  written to the target of its step;
* `Expander.stepPasses_step` — what one step adds;
* `Plan.passesOf_expand`, `Plan.passes_eq_flatMap` — the passes of a graph, step by step.
-/

namespace EffectChain

open EffectChain.Graph

/-- An output of an effect has a texture: by its name alone, or because it is declared. -/
def Descriptor.Yields (d : Descriptor) (name : String) : Prop :=
  isConventionOutput name = true ∨ (d.texture? name).isSome = true

/-- An output that is not one by its name alone is declared. -/
theorem Descriptor.Yields.declared {d : Descriptor} {name : String} (h : d.Yields name)
    (himage : name ≠ "outputTex") (hvolume : name ≠ "outputTex3d")
    (hgeometry : name ≠ "outputGeo") : (d.texture? name).isSome = true :=
  h.resolve_left (by simp [isConventionOutput, conventionOutputs, himage, hvolume, hgeometry])

namespace Graph

/-- Only textures and errors have come to a draft. -/
structure Draft.Binds (draft draft' : Draft) : Prop where
  passes : draft'.graph.passes = draft.graph.passes
  programs : draft'.graph.programs = draft.graph.programs
  flows : draft'.flows = draft.flows
  errors : draft.graph.errors <+: draft'.graph.errors

namespace Draft.Binds

theorem refl (draft : Draft) : draft.Binds draft := ⟨rfl, rfl, rfl, List.prefix_refl _⟩

theorem trans {draft draft' draft'' : Draft} (h : draft.Binds draft') (h' : draft'.Binds draft'') :
    draft.Binds draft'' :=
  ⟨h'.passes.trans h.passes, h'.programs.trans h.programs, h'.flows.trans h.flows,
    h.errors.trans h'.errors⟩

theorem addTexture (draft : Draft) (id : String) (spec : TextureSpec) :
    draft.Binds (draft.addTexture id spec) :=
  ⟨rfl, rfl, rfl, List.prefix_refl _⟩

theorem addError (draft : Draft) (s : Step) (problem : Graph.Problem) :
    draft.Binds (draft.addError s problem) :=
  ⟨rfl, rfl, rfl, List.prefix_append _ _⟩

end Draft.Binds

/-- The passes of a step have different names. -/
theorem passId_injective (s : Step) : Function.Injective (passId s) := by
  intro i j h
  have hlist := congrArg String.toList h
  simp only [passId, String.toList_append] at hlist
  exact toString_injective (List.append_cancel_left hlist)

/-- The passes that belong to a step. -/
def passesOf (g : Graph) (s : Step) : List Graph.Pass := g.passes.filter (·.step = s.temp)

namespace Expander

variable {x : Expander} {s : Step} {d : Descriptor} {draft : Draft}

/-! ## one pass -/

/-- An input that is bound comes from where its name says. -/
theorem bindInputs_bound (x : Expander) (step : Step) (d : Descriptor) (flow : Flow) (place : Nat)
    (inputs : Table String) (draft : Draft) {binding id : String}
    (hbound : (x.bindInputs step d flow place inputs draft).2.get? binding = some id) :
    ∃ name fresh, inputs.get? binding = some name ∧ x.source? draft step d flow name =
      some (id, fresh) := by
  revert binding id
  refine bindInputs_induct place inputs (P := fun _ _ bound => ∀ {binding id},
    bound.get? binding = some id →
    ∃ name fresh, inputs.get? binding = some name ∧ x.source? draft step d flow name =
      some (id, fresh))
    (by simp) ?_ fun _ _ _ _ _ _ _ h => h
  intro done draft' bound binding name id fresh hpre hs ih b i hi
  have hname : inputs.get? binding = some name := Table.mem_entries_iff.1 (hpre.subset (by simp))
  rw [Table.get?_insert] at hi
  split at hi
  · next hb => exact ⟨name, fresh, hb ▸ hname, Option.some.inj hi ▸ hs⟩
  · exact ih hi

/-- Binding inputs keeps the bindings made before. -/
theorem binds_bindInputs (x : Expander) (step : Step) (d : Descriptor) (flow : Flow) (place : Nat)
    (inputs : Table String) (draft : Draft) :
    draft.Binds (x.bindInputs step d flow place inputs draft).1 := by
  refine bindInputs_induct place inputs (P := fun _ draft' _ => draft.Binds draft')
    (.refl draft) ?_ ?_
  · intro _ _ _ _ _ _ fresh _ _ h
    cases fresh
    · exact h
    · exact h.trans (.addTexture _ _ _)
  · exact fun _ _ _ _ _ _ _ h => h.trans (.addError _ _ _)

/-- Binding an output keeps the bindings made before. -/
theorem binds_bindOutput (step : Step) (d : Descriptor) (place : Nat) (last : Bool) (w : Written)
    (attachment name : String) :
    w.draft.Binds (bindOutput step d place last w attachment name).draft := by
  rcases Written.bindOutput_cases step d place last w attachment name with ⟨-, heq⟩ |
    ⟨w', heq, ⟨hsame, -⟩ | ⟨spec, -, hadded⟩, -⟩ <;> rw [heq]
  · exact .addError _ _ _
  · exact hsame ▸ .refl w.draft
  · exact hadded ▸ .addTexture w.draft _ spec

/-- Binding all outputs keeps the bindings made before. -/
theorem binds_bindAll (step : Step) (d : Descriptor) (place : Nat) (outputs : Table String)
    (w : Written) :
    w.draft.Binds (bindAll step d place outputs w).draft :=
  List.foldlRecOn (motive := fun w' : Written => w.draft.Binds w'.draft) outputs.entries
    (fun w e => bindOutput step d place (place + 1 = d.passes.length) w e.1 e.2) (.refl w.draft)
        fun w' ih e _ =>
    ih.trans (binds_bindOutput step d place _ w' e.1 e.2)

namespace Written

variable {step : Step} {d : Descriptor} {last : Bool} {outs outs' : List (String × String)}
    {w w' w'' : Written}

/-- What binding outputs of a pass comes to: each that is bound is bound to the texture of its
name, and the image to the texture that the step has then come to. -/
structure Puts (step : Step) (d : Descriptor) (last : Bool) (outs : List (String × String))
    (w w' : Written) : Prop where
  passes : w'.draft.graph.passes = w.draft.graph.passes
  flows : w'.draft.flows = w.draft.flows
  bound : ∀ a id, w'.bound.get? a = some id →
    w.bound.get? a = some id ∨ ∃ name, (a, name) ∈ outs ∧ d.Yields name ∧
      id = outputId step last name
  others : ∀ a, a ∉ outs.map (·.1) → w'.bound.get? a = w.bound.get? a
  direct : w'.direct = (w.direct || outs.any fun e => isDirect step last e.2)
  image : (∀ e ∈ outs, e.2 ≠ "outputTex") ∧ w'.image = w.image ∨
    (∃ e ∈ outs, e.2 = "outputTex" ∧ w'.bound.get? e.1 = some (outputId step last "outputTex")) ∧
      w'.image = some (outputId step last "outputTex")

/-- An output that has no texture is an error and nothing else. -/
theorem bindOutput_undeclared {name : String} (h : ¬ d.Yields name) (step : Step) (place : Nat)
    (last : Bool) (w : Written) (attachment : String) :
    bindOutput step d place last w attachment name =
      { w with draft := w.draft.addError step (.undeclaredTexture place name) } := by
  obtain ⟨hconvention, htexture⟩ := not_or.1 h
  simp only [isConventionOutput, conventionOutputs, List.contains_eq_mem, List.mem_cons,
    List.not_mem_nil, or_false, decide_eq_true_eq, not_or] at hconvention
  unfold bindOutput
  split
  · exact absurd rfl hconvention.1
  · exact absurd rfl hconvention.2.1
  · exact absurd rfl hconvention.2.2
  · simp [Option.not_isSome_iff_eq_none.1 htexture]

/-- One output is put where its attachment says. -/
theorem puts_output (step : Step) (d : Descriptor) (place : Nat) (last : Bool) (w : Written)
    (attachment name : String) :
    Puts step d last [(attachment, name)] w (bindOutput step d place last w attachment name) := by
  by_cases himage : name = "outputTex"
  · subst himage
    have heq : bindOutput step d place last w attachment "outputTex" =
        { w with
          draft := w.draft.addTexture (outputId step last "outputTex") .surface
          image := some (outputId step last "outputTex")
          direct := w.direct || isDirect step last "outputTex"
          bound := w.bound.insert attachment (outputId step last "outputTex") } := by
      unfold bindOutput outputId isDirect
      cases step.out <;> cases last <;> simp
    rw [heq]
    refine ⟨rfl, rfl, fun a id ha => ?_, fun a ha => ?_, by simp,
      .inr ⟨⟨_, List.mem_singleton_self _, rfl, by simp⟩, rfl⟩⟩
    · rw [Table.get?_insert] at ha
      split at ha
      · next hk => exact .inr ⟨_, by simp [hk], .inl (by decide), (Option.some.inj ha).symm⟩
      · exact .inl ha
    · have hne : a ≠ attachment := by simpa using ha
      simp [hne]
  · have hnone : ∀ e ∈ [(attachment, name)], e.2 ≠ "outputTex" := by simpa using himage
    have hdirect : isDirect step last name = false := by simp [isDirect, himage]
    by_cases hyields : d.Yields name
    swap
    · rw [bindOutput_undeclared hyields]
      exact ⟨rfl, rfl, fun _ _ h => .inl h, fun _ _ => rfl, by simp [hdirect], .inl ⟨hnone, rfl⟩⟩
    rcases bindOutput_cases step d place last w attachment name with ⟨-, heq⟩
      | ⟨w', heq, -, hbound, hresult, hw'⟩
    · rw [heq]
      exact ⟨rfl, rfl, fun _ _ h => .inl h, fun _ _ => rfl, by simp [hdirect], .inl ⟨hnone, rfl⟩⟩
    · rw [heq]
      have hbinds : w.draft.Binds w'.draft :=
        heq ▸ binds_bindOutput step d place last w attachment name
      refine ⟨hbinds.passes, hbinds.flows, fun a id ha => ?_, fun a ha => ?_,
        by simp [hw', hdirect], .inl ⟨hnone, ?_⟩⟩
      · rw [hbound, Table.get?_insert] at ha
        split at ha
        · next hk => exact .inr ⟨name, by simp [hk], hyields, (Option.some.inj ha).symm⟩
        · exact .inl ha
      · have hne : a ≠ attachment := by simpa using ha
        simp [hbound, hne]
      · have hon := congrArg (Flow.on · .image) hresult
        unfold after at hon
        split at hon
        · next c hc =>
            have hc' : Channel.image ≠ c := fun h => himage (channel?_eq_image (h ▸ hc))
            rw [Flow.on_put, if_neg hc'] at hon
            exact hon
        · exact hon

/-- Outputs with different names are bound one after another. -/
theorem Puts.trans (h : Puts step d last outs w w') (h' : Puts step d last outs' w' w'')
    (hdisjoint : ∀ e ∈ outs, e.1 ∉ outs'.map (·.1)) : Puts step d last (outs ++ outs') w w'' where
  passes := h'.passes.trans h.passes
  flows := h'.flows.trans h.flows
  bound a id ha := by
    rcases h'.bound a id ha with ha | ⟨name, hmem, hid⟩
    · refine (h.bound a id ha).imp_right ?_
      rintro ⟨name, hmem, hid⟩
      exact ⟨name, List.mem_append_left _ hmem, hid⟩
    · exact .inr ⟨name, List.mem_append_right _ hmem, hid⟩
  others a ha := by
    rw [List.map_append, List.mem_append, not_or] at ha
    rw [h'.others a ha.2, h.others a ha.1]
  direct := by rw [h'.direct, h.direct, List.any_append, Bool.or_assoc]
  image := by
    rcases h'.image with ⟨hnone', himage'⟩ | ⟨⟨e, he, hname, hget⟩, himage'⟩
    · rcases h.image with ⟨hnone, himage⟩ | ⟨⟨e, he, hname, hget⟩, himage⟩
      · refine .inl ⟨fun e he => ?_, himage'.trans himage⟩
        exact (List.mem_append.1 he).elim (hnone e) (hnone' e)
      · refine .inr ⟨⟨e, List.mem_append_left _ he, hname, ?_⟩, himage'.trans himage⟩
        rw [h'.others _ (hdisjoint e he), hget]
    · exact .inr ⟨⟨e, List.mem_append_right _ he, hname, hget⟩, himage'⟩

/-- All outputs of a pass are put where their attachments say. -/
theorem puts_all (step : Step) (d : Descriptor) (place : Nat) (outputs : Table String)
    (w : Written) :
    Puts step d (place + 1 = d.passes.length) outputs.entries { w with bound := {} }
      (bindAll step d place outputs w) := by
  have hall : ∀ (es : List (String × String)) (w : Written), es.Pairwise (fun a b => a.1 < b.1) →
      Puts step d (place + 1 = d.passes.length) es w (es.foldl (fun w e =>
        bindOutput step d place (place + 1 = d.passes.length) w e.1 e.2) w) := by
    intro es
    induction es with
    | nil =>
        exact fun w _ =>
          ⟨rfl, rfl, fun _ _ h => .inl h, fun _ _ => rfl, by simp, .inl ⟨by simp, rfl⟩⟩
    | cons e es ih =>
        intro w hsorted
        obtain ⟨hlt, hsorted⟩ := List.pairwise_cons.1 hsorted
        refine (puts_output step d place _ w e.1 e.2).trans (ih _ hsorted) ?_
        simp only [List.mem_singleton, forall_eq, List.mem_map, not_exists, not_and]
        exact fun e' he' heq => String.lt_irrefl _ (heq ▸ hlt e' he')
  exact hall outputs.entries _ outputs.sorted

end Written

/-- What the pass of an effect at the given place becomes, over the draft before its step. -/
structure Becomes (x : Expander) (draft : Draft) (s : Step) (d : Descriptor) (place : Nat)
    (p : EffectChain.Pass) (q : Graph.Pass) : Prop where
  made : q = x.made s d ((input draft s).addParams d s).uniforms place p q.inputs q.outputs
  inputs : ∀ a id, q.inputs.get? a = some id →
    ∃ name fresh, p.inputs.get? a = some name ∧ x.source? draft s d (input draft s) name =
      some (id, fresh)
  outputs : ∀ a id, q.outputs.get? a = some id →
    ∃ name, p.outputs.get? a = some name ∧ d.Yields name ∧
      id = outputId s (place + 1 = d.passes.length) name
  image : "outputTex" ∈ p.outputs.values → outputId s (place + 1 = d.passes.length) "outputTex" ∈
    q.outputs.values

namespace Becomes

variable {place : Nat} {p : EffectChain.Pass} {q : Graph.Pass}

theorem id (h : Becomes x draft s d place p q) : q.id = passId s place := by rw [h.made]; rfl

theorem step (h : Becomes x draft s d place p q) : q.step = s.temp := by rw [h.made]; rfl

theorem effect (h : Becomes x draft s d place p q) : q.effect = s.op := by rw [h.made]; rfl

theorem guards (h : Becomes x draft s d place p q) : q.guards = s.guards := by rw [h.made]; rfl

theorem repetition (h : Becomes x draft s d place p q) :
    q.repetition = s.repetition := by rw [h.made]; rfl

theorem isCopy (h : Becomes x draft s d place p q) : q.isCopy = false := by rw [h.made]; rfl

end Becomes

/-! ## the passes of an effect -/

/-- What has come of the first `n` passes of an effect. -/
structure Ran (x : Expander) (draft : Draft) (s : Step) (d : Descriptor) (n : Nat) (w : Written) :
    Prop where
  flows : w.draft.flows = draft.flows
  passes : ∃ own, w.draft.graph.passes = draft.graph.passes ++ own ∧ own.length = n ∧
    ∀ i q, own[i]? = some q → ∃ p, d.passes[i]? = some p ∧ Becomes x draft s d i p q
  /-- The target is written by the last pass, if that has an image. -/
  direct : w.direct = true ↔ n = d.passes.length ∧ s.out.isSome = true ∧
    ∃ p, d.passes.getLast? = some p ∧ "outputTex" ∈ p.outputs.values
  image : w.image = (input draft s).image ∨ w.image = some (nodeId s.temp ++ "_out") ∨
    w.direct = true ∧ ∃ o, s.out = some o ∧ w.image = some (surfaceId o)

section passes

variable {n : Nat} {w : Written} {p : EffectChain.Pass}

/-- A step's image goes straight to its surface when its last pass writes it there. -/
theorem any_isDirect {outputs : Table String} {last : Bool} :
    (outputs.entries.any fun e => isDirect s last e.2) = true ↔
      last = true ∧ s.out.isSome = true ∧ "outputTex" ∈ outputs.values := by
  simp only [List.any_eq_true, isDirect, Bool.and_eq_true, decide_eq_true_eq, Table.values,
    List.mem_map]
  constructor
  · rintro ⟨e, he, ⟨hname, hlast⟩, hout⟩
    exact ⟨hlast, hout, e, he, hname⟩
  · rintro ⟨hlast, hout, e, he, hname⟩
    exact ⟨e, he, ⟨hname, hlast⟩, hout⟩

/-- One more pass of the effect. -/
theorem Ran.pass (h : Ran x draft s d n w) (hp : d.passes[n]? = some p) :
    Ran x draft s d (n + 1)
      (x.pass s d (input draft s) ((input draft s).addParams d s).uniforms w n p) := by
  rw [pass_eq]
  dsimp only
  have hbinds := binds_bindInputs x s d (input draft s) n p.inputs w.draft
  have hinputs := @bindInputs_bound x s d (input draft s) n p.inputs w.draft
  generalize x.bindInputs s d (input draft s) n p.inputs w.draft = r at hbinds hinputs
  have hputs := Written.puts_all s d n p.outputs { w with draft := r.1 }
  generalize bindAll s d n p.outputs { w with draft := r.1 } = w' at hputs
  have hlt : n < d.passes.length := (List.getElem?_eq_some_iff.1 hp).1
  have hbefore : w.direct = false := by
    by_contra hw
    have hn := (h.direct.1 (by simpa using hw)).1
    omega
  obtain ⟨own, hown, hlength, hmade⟩ := h.passes
  refine ⟨hputs.flows.trans (hbinds.flows.trans h.flows),
    ⟨own ++ [x.made s d ((input draft s).addParams d s).uniforms n p r.2 w'.bound], ?_,
      by simp [hlength], ?_⟩, ?_, ?_⟩
  · show w'.draft.graph.passes ++ [_] = _
    rw [hputs.passes, hbinds.passes, hown, List.append_assoc]
  · intro i q hq
    by_cases hi : i < own.length
    · exact hmade i q (by rwa [List.getElem?_append_left hi] at hq)
    · have hsome := (List.getElem?_eq_some_iff.1 hq).1
      obtain rfl : i = own.length := by simp at hsome; omega
      obtain rfl : _ = q := by simpa using hq
      rw [hlength]
      refine ⟨p, hp, rfl, fun a id ha => ?_, fun a id ha => ?_, fun himage => ?_⟩
      · obtain ⟨name, fresh, hname, hs⟩ := hinputs ha
        exact ⟨name, fresh, hname, by rw [← hs, source?_flows h.flows]⟩
      · rcases hputs.bound a id ha with hnone | ⟨name, hmem, hid⟩
        · simp at hnone
        · exact ⟨name, Table.mem_entries_iff.1 hmem, hid⟩
      · obtain ⟨e, he, hname⟩ := List.mem_map.1 himage
        rcases hputs.image with ⟨hnone, -⟩ | ⟨⟨e', -, -, hget⟩, -⟩
        · exact absurd hname (hnone e he)
        · exact Table.mem_values_iff.2 ⟨e'.1, hget⟩
  · show w'.direct = true ↔ _
    rw [hputs.direct]
    have hfalse : ({ ({ w with draft := r.1 } : Written) with bound := {} } : Written).direct =
      false := hbefore
    rw [hfalse, Bool.false_or, any_isDirect, decide_eq_true_eq]
    refine and_congr_right fun hn => and_congr_right fun _ => ?_
    have hlast : d.passes.getLast? = some p := by
      rw [List.getLast?_eq_getElem?, ← hn, Nat.add_sub_cancel, hp]
    simp [hlast]
  · show w'.image = _ ∨ _
    rcases hputs.image with ⟨-, himage⟩ | ⟨⟨e, he, hname, -⟩, himage⟩
    · have himage : w'.image = w.image := himage
      rw [himage]
      rcases h.image with himage | himage | ⟨hdirect, -⟩
      · exact .inl himage
      · exact .inr (.inl himage)
      · simp [hbefore] at hdirect
    · rw [himage]
      cases hout : s.out with
      | none => exact .inr (.inl (by simp [outputId, hout]))
      | some o =>
          by_cases hn : n + 1 = d.passes.length
          · refine .inr (.inr ⟨?_, o, rfl, by simp [outputId, hout, hn]⟩)
            show w'.direct = true
            have hvalue : "outputTex" ∈ p.outputs.values := hname ▸ List.mem_map_of_mem he
            rw [hputs.direct, Bool.or_eq_true, any_isDirect]
            exact .inr ⟨by simpa using hn, by simp [hout], hvalue⟩
          · exact .inr (.inl (by simp [outputId, hn]))

/-- All passes of the effect. -/
theorem ran_runAll (x : Expander) (draft : Draft) (s : Step) (d : Descriptor) :
    Ran x draft s d d.passes.length (x.runAll s d draft) := by
  obtain ⟨-, hpasses, hflows⟩ := declare_same x s d draft
  refine runAll_induct (P := fun n w => Ran x draft s d n w)
    ⟨hflows, ⟨[], by simp [hpasses], rfl, by simp⟩, ⟨by simp, ?_⟩, .inl rfl⟩ fun w i p hp hw =>
      hw.pass hp
  rintro ⟨hnone, -, p, hlast, -⟩
  simp [List.length_eq_zero_iff.1 hnone.symm] at hlast

end passes

/-! ## steps -/

/-- The step of an effect that is not known hands on what comes down its chain. -/
theorem step_unknown (h : x.lookup s.op = none) (draft : Draft) :
    x.step draft s = finish s (input draft s) (input draft s).image false
      ((draft.addError s (.unknownEffect s.op)).setFlow s.temp (input draft s)) := by
  unfold step
  rw [h]
  rfl

/-- What a step adds behind the passes of its effect: nothing, or a copy to its target. -/
def Copies (s : Step) (copies : List Graph.Pass) : Prop :=
  copies = [] ∨ ∃ out image o, s.out = some o ∧ copies = [copy s out image (surfaceId o)]

/-- Bringing a result to its target adds nothing, or a copy of the result. -/
theorem finish_passes (s : Step) (out : Flow) (image : Option String) (direct : Bool)
    (draft : Draft) :
    ∃ copies, (finish s out image direct draft).graph.passes = draft.graph.passes ++ copies ∧
      (copies = [] ∨ ∃ id o, s.out = some o ∧ copies = [copy s out id (surfaceId o)]) := by
  rcases finish_cases s out image direct draft with ⟨-, heq⟩
    | ⟨o, ho, ⟨-, heq⟩ | ⟨-, heq⟩ | ⟨id, -, heq⟩⟩ <;> rw [heq]
  · exact ⟨[], (List.append_nil _).symm, .inl rfl⟩
  · exact ⟨[], (List.append_nil _).symm, .inl rfl⟩
  · exact ⟨[], (List.append_nil _).symm, .inl rfl⟩
  · exact ⟨[copy s out id (surfaceId o)], rfl, .inr ⟨id, o, ho, rfl⟩⟩

/-- Finishing a step adds copies at most. -/
theorem finish_copies (s : Step) (out : Flow) (image : Option String) (direct : Bool)
    (draft : Draft) :
    ∃ copies, (finish s out image direct draft).graph.passes = draft.graph.passes ++ copies ∧
    Copies s copies := by
  obtain ⟨copies, hpasses, hcopies⟩ := finish_passes s out image direct draft
  refine ⟨copies, hpasses, hcopies.imp_right ?_⟩
  rintro ⟨id, o, ho, heq⟩
  exact ⟨out, id, o, ho, heq⟩

/-- The passes of a step over a draft: those of its effect, in their order, and perhaps a copy. -/
inductive StepPasses (x : Expander) (draft : Draft) (s : Step) : List Graph.Pass → Prop
  | unknown {copies : List Graph.Pass} (hnone : x.lookup s.op = none) (hcopies : Copies s copies) :
      StepPasses x draft s copies
  | known {d : Descriptor} {made copies : List Graph.Pass} (hd : x.lookup s.op = some d)
      (hlength : made.length = d.passes.length)
      (hmade : ∀ i q, made[i]? = some q → ∃ p, d.passes[i]? = some p ∧ Becomes x draft s d i p q)
      (hcopies : Copies s copies) : StepPasses x draft s (made ++ copies)

/-- The passes of a step are its own and stand behind the earlier ones. -/
theorem stepPasses_step (x : Expander) (draft : Draft) (s : Step) :
    ∃ own, (x.step draft s).graph.passes = draft.graph.passes ++ own ∧
    StepPasses x draft s own := by
  cases hd : x.lookup s.op with
  | none =>
      obtain ⟨copies, hpasses, hcopies⟩ :=
        finish_copies s (input draft s) (input draft s).image false
        ((draft.addError s (.unknownEffect s.op)).setFlow s.temp (input draft s))
      rw [step_unknown hd]
      exact ⟨copies, hpasses, .unknown hd hcopies⟩
  | some d =>
      obtain ⟨made, hmade, hlength, hbecomes⟩ := (ran_runAll x draft s d).passes
      obtain ⟨copies, hpasses, hcopies⟩ :=
        finish_copies s (x.runAll s d draft).result (x.runAll s d draft).image
        (x.runAll s d draft).direct
          ((x.runAll s d draft).draft.setFlow s.temp (x.runAll s d draft).result)
      rw [step_known hd]
      refine ⟨made ++ copies, ?_, .known hd hlength hbecomes hcopies⟩
      rw [hpasses, ← List.append_assoc, ← hmade]
      rfl

namespace StepPasses

variable {own : List Graph.Pass}

/-- The passes of a step carry its number and its guards. -/
theorem of_mem (h : StepPasses x draft s own) {q : Graph.Pass} (hq : q ∈ own) :
    q.step = s.temp ∧ q.guards = s.guards := by
  have hcopied : ∀ {copies}, Copies s copies → q ∈ copies → q.step = s.temp ∧
      q.guards = s.guards := by
    rintro copies (rfl | ⟨out, image, o, -, rfl⟩) hq
    · simp at hq
    · obtain rfl := List.mem_singleton.1 hq
      exact ⟨rfl, rfl⟩
  cases h with
  | unknown _ hcopies => exact hcopied hcopies hq
  | known _ _ hmade hcopies =>
      rcases List.mem_append.1 hq with hq | hq
      · obtain ⟨i, hi⟩ := List.getElem?_of_mem hq
        obtain ⟨p, -, hp⟩ := hmade i q hi
        exact ⟨hp.step, hp.guards⟩
      · exact hcopied hcopies hq

end StepPasses

/-! ## errors -/

/-- Finishing a step keeps the errors. -/
theorem errors_finish (s : Step) (out : Flow) (image : Option String) (direct : Bool)
    (draft : Draft) :
    draft.graph.errors <+: (finish s out image direct draft).graph.errors := by
  rcases finish_cases s out image direct draft with ⟨-, heq⟩
    | ⟨o, -, ⟨-, heq⟩ | ⟨-, heq⟩ | ⟨id, -, heq⟩⟩ <;> rw [heq]
  · exact List.prefix_append _ _
  · exact List.prefix_refl _
  · exact List.prefix_refl _

/-- An effect that is not known is an error. -/
theorem unknown_mem_errors (h : x.lookup s.op = none) (draft : Draft) :
    ⟨.unknownEffect s.op, s.temp, s.op⟩ ∈ (x.step draft s).graph.errors := by
  rw [step_unknown h]
  refine (errors_finish s _ _ _
    ((draft.addError s (.unknownEffect s.op)).setFlow s.temp (input draft s))).subset ?_
  exact List.mem_append_right _ (List.mem_singleton_self _)

/-- The errors so far stay. -/
theorem errors_step (x : Expander) (draft : Draft) (s : Step) :
    draft.graph.errors <+: (x.step draft s).graph.errors := by
  cases hd : x.lookup s.op with
  | none =>
      have herror : draft.graph.errors <+: (draft.addError s (.unknownEffect s.op)).graph.errors :=
        List.prefix_append _ _
      rw [step_unknown hd]
      exact herror.trans
        (errors_finish s _ _ _
          ((draft.addError s (.unknownEffect s.op)).setFlow s.temp (input draft s)))
  | some d =>
      rw [step_known hd]
      refine List.IsPrefix.trans ?_ (errors_finish s _ _ _ _)
      show draft.graph.errors <+: (x.runAll s d draft).draft.graph.errors
      refine runAll_induct (P := fun _ w => draft.graph.errors <+: w.draft.graph.errors) ?_
        fun w i p _ hw => ?_
      · rw [(declare_same x s d draft).1]
      · rw [pass_eq]
        have hinputs := binds_bindInputs x s d (input draft s) i p.inputs w.draft
        have houtputs := binds_bindAll s d i p.outputs
          { w with draft := (x.bindInputs s d (input draft s) i p.inputs w.draft).1 }
        exact (hw.trans hinputs.errors).trans houtputs.errors

end Expander

end Graph

/-! ## plans -/

namespace Plan

variable {p : Plan} {lookup : String → Option Descriptor} {overrides : List ShaderOverride}
    {s : Step}
  {done rest : List Step}

/-- The draft after the given steps of a plan. -/
def draftAfter (p : Plan) (lookup : String → Option Descriptor) (overrides : List ShaderOverride)
    (done : List Step) : Draft :=
  done.foldl (Expander.step ⟨p, lookup, overrides⟩)
    { graph := { id := p.id
                 render := surfaceId p.renderSurface
                 textures := Table.empty.insert (surfaceId p.renderSurface) .surface } }

theorem expand_eq_draftAfter (p : Plan) (lookup : String → Option Descriptor)
    (overrides : List ShaderOverride) :
    p.expand lookup overrides = (p.draftAfter lookup overrides p.steps).graph := rfl

/-- The draft after one more step. -/
theorem draftAfter_concat (p : Plan) (lookup : String → Option Descriptor)
    (overrides : List ShaderOverride) (done : List Step) (s : Step) :
    p.draftAfter lookup overrides (done ++ [s]) =
      Expander.step ⟨p, lookup, overrides⟩ (p.draftAfter lookup overrides done) s := by
  simp [draftAfter]

/-- Induction on the steps of a plan, in their order. -/
theorem draftAfter_induct {P : List Step → Draft → Prop}
    (first : P [] (p.draftAfter lookup overrides []))
    (next : ∀ done s draft, done ++ [s] <+: p.steps → P done draft →
      P (done ++ [s]) (Expander.step ⟨p, lookup, overrides⟩ draft s)) (hdone : done <+: p.steps) :
    P done (p.draftAfter lookup overrides done) := by
  induction done using List.reverseRecOn with
  | nil => exact first
  | append_singleton done s ih =>
      rw [draftAfter_concat]
      exact next done s _ hdone (ih ((List.prefix_append done [s]).trans hdone))

/-- The passes and the errors so far stay, and further passes belong to further steps. -/
theorem grown_draftAfter (p : Plan) (lookup : String → Option Descriptor)
    (overrides : List ShaderOverride) (done rest : List Step) :
    (p.draftAfter lookup overrides done).graph.errors <+:
      (p.draftAfter lookup overrides (done ++ rest)).graph.errors ∧
      ∃ more, (p.draftAfter lookup overrides (done ++ rest)).graph.passes =
          (p.draftAfter lookup overrides done).graph.passes ++ more ∧
        ∀ q ∈ more, ∃ s ∈ rest, q.step = s.temp := by
  induction rest using List.reverseRecOn with
  | nil => exact ⟨by simp, [], by simp, by simp⟩
  | append_singleton rest s ih =>
      obtain ⟨herrors, more, hpasses, hmore⟩ := ih
      rw [← List.append_assoc, draftAfter_concat]
      obtain ⟨own, hown, hblock⟩ := Expander.stepPasses_step ⟨p, lookup, overrides⟩
        (p.draftAfter lookup overrides (done ++ rest)) s
      refine ⟨herrors.trans (Expander.errors_step _ _ s), more ++ own,
        by rw [hown, hpasses, List.append_assoc], ?_⟩
      intro q hq
      rcases List.mem_append.1 hq with hq | hq
      · obtain ⟨s', hs', hstep⟩ := hmore q hq
        exact ⟨s', by simp [hs'], hstep⟩
      · exact ⟨s, by simp, (hblock.of_mem hq).1⟩

/-- What a step has added is what belongs to it, if no other step has its number. -/
theorem passesOf_expand (hnodup : (p.steps.map Step.temp).Nodup)
    (hsteps : p.steps = done ++ s :: rest) {own : List Graph.Pass}
    (hown : (p.draftAfter lookup overrides (done ++ [s])).graph.passes =
      (p.draftAfter lookup overrides done).graph.passes ++ own)
    (hblock : ∀ q ∈ own, q.step = s.temp) : (p.expand lookup overrides).passesOf s = own := by
  obtain ⟨-, before, hbefore, hdone⟩ := grown_draftAfter p lookup overrides [] done
  obtain ⟨-, after, hafter, hrest⟩ := grown_draftAfter p lookup overrides (done ++ [s]) rest
  have hsplit : p.steps = (done ++ [s]) ++ rest := by simpa using hsteps
  have hothers : ∀ s' ∈ done ++ rest, s'.temp ≠ s.temp := by
    rw [hsteps, List.map_append, List.map_cons, List.nodup_append, List.nodup_cons] at hnodup
    obtain ⟨-, ⟨hs, -⟩, hdisjoint⟩ := hnodup
    intro s' hs' heq
    rcases List.mem_append.1 hs' with hs' | hs'
    · exact hdisjoint _ (List.mem_map_of_mem hs') _ List.mem_cons_self heq
    · exact hs (heq ▸ List.mem_map_of_mem hs')
  have hnone : ∀ qs : List Graph.Pass, (∀ q ∈ qs, ∃ s' ∈ done ++ rest, q.step = s'.temp) →
      qs.filter (fun q => decide (q.step = (s.temp : Int))) = [] := by
    intro qs hqs
    refine List.filter_eq_nil_iff.2 fun q hq => ?_
    obtain ⟨s', hs', hstep⟩ := hqs q hq
    have hne := hothers s' hs'
    simp only [hstep, decide_eq_true_eq]
    omega
  have hall : own.filter (fun q => decide (q.step = (s.temp : Int))) = own :=
    List.filter_eq_self.2 fun q hq => by simpa using hblock q hq
  rw [passesOf, expand_eq_draftAfter, hsplit, hafter, hown, ← List.nil_append done, hbefore,
    List.filter_append, List.filter_append, List.filter_append, hall, hnone before fun q hq => ?_,
      hnone after fun q hq => ?_]
  · simp [draftAfter]
  · obtain ⟨s', hs', hstep⟩ := hrest q hq
    exact ⟨s', by simp [hs'], hstep⟩
  · obtain ⟨s', hs', hstep⟩ := hdone q hq
    exact ⟨s', by simp [hs'], hstep⟩

/-- What a step adds to the passes of the steps before it belongs to it, and its errors stay. -/
theorem exists_draft (hnodup : (p.steps.map Step.temp).Nodup) (lookup : String → Option Descriptor)
    (overrides : List ShaderOverride) (hs : s ∈ p.steps) :
    ∃ done, done ++ [s] <+: p.steps ∧
      (Expander.step ⟨p, lookup, overrides⟩ (p.draftAfter lookup overrides done) s).graph.passes =
        (p.draftAfter lookup overrides done).graph.passes ++
          (p.expand lookup overrides).passesOf s ∧
      (Expander.step ⟨p, lookup, overrides⟩ (p.draftAfter lookup overrides done) s).graph.errors <+:
        (p.expand lookup overrides).errors ∧
      Expander.StepPasses ⟨p, lookup, overrides⟩ (p.draftAfter lookup overrides done) s
        ((p.expand lookup overrides).passesOf s) := by
  obtain ⟨done, rest, hsteps⟩ := List.append_of_mem hs
  have hsplit : p.steps = (done ++ [s]) ++ rest := by simpa using hsteps
  obtain ⟨own, hown, hblock⟩ :=
    Expander.stepPasses_step ⟨p, lookup, overrides⟩ (p.draftAfter lookup overrides done) s
  have herrors := (grown_draftAfter p lookup overrides (done ++ [s]) rest).1
  rw [← hsplit, draftAfter_concat] at herrors
  have hpasses : (p.expand lookup overrides).passesOf s = own :=
    passesOf_expand hnodup hsteps (draftAfter_concat p lookup overrides done s ▸ hown) fun q hq =>
      (hblock.of_mem hq).1
  rw [hpasses]
  exact ⟨done, hsplit ▸ List.prefix_append _ _, hown, herrors, hblock⟩

/-- Without errors the effect of every step is known, and the passes of the step are those of
its effect and perhaps a copy. -/
theorem known_of_clean (hnodup : (p.steps.map Step.temp).Nodup)
    (hclean : (p.expand lookup overrides).errors = []) (hs : s ∈ p.steps) :
    ∃ d draft made copies, lookup s.op = some d ∧ (p.expand lookup overrides).passesOf s = made ++
      copies ∧
      made.length = d.passes.length ∧
      (∀ i q, made[i]? = some q →
        ∃ e, d.passes[i]? = some e ∧ Expander.Becomes ⟨p, lookup, overrides⟩ draft s d i e q) ∧
      Expander.Copies s copies := by
  obtain ⟨done, -, -, herrors, hblock⟩ := exists_draft hnodup lookup overrides hs
  generalize (p.expand lookup overrides).passesOf s = own at hblock ⊢
  cases hblock with
  | unknown hnone =>
      have herror := herrors.subset (Expander.unknown_mem_errors hnone _)
      simp [hclean] at herror
  | known hd hlength hmade hcopies => exact ⟨_, _, _, _, hd, rfl, hlength, hmade, hcopies⟩

/-- The passes of a graph are those of its steps, in the order of the plan. -/
theorem passes_eq_flatMap (hnodup : (p.steps.map Step.temp).Nodup)
    (lookup : String → Option Descriptor) (overrides : List ShaderOverride) :
    (p.expand lookup overrides).passes = p.steps.flatMap (p.expand lookup overrides).passesOf := by
  have hall : ∀ done rest, p.steps = done ++ rest →
      (p.draftAfter lookup overrides done).graph.passes =
      done.flatMap (p.expand lookup overrides).passesOf := by
    intro done
    induction done using List.reverseRecOn with
    | nil => exact fun _ _ => rfl
    | append_singleton done s ih =>
        intro rest hsteps
        have hsteps : p.steps = done ++ s :: rest := by simpa using hsteps
        obtain ⟨own, hown, hblock⟩ :=
          Expander.stepPasses_step ⟨p, lookup, overrides⟩ (p.draftAfter lookup overrides done) s
        rw [← draftAfter_concat] at hown
        rw [hown, ih _ hsteps, List.flatMap_append, List.flatMap_singleton,
          passesOf_expand hnodup hsteps hown fun q hq => (hblock.of_mem hq).1]
  rw [expand_eq_draftAfter]
  exact hall p.steps [] (by simp)

end Plan

end EffectChain
