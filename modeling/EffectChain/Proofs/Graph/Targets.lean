import EffectChain.Proofs.Graph.Passes

/-!
# EffectChain.Proofs.Graph.Targets

Where the steps of a plan are written to.

A step with a target writes it once, with its last pass: the last pass of its effect writes
there itself, or a copy is put behind the passes of the effect.  When there is no image to be
copied, the graph has an error about the step (`written_compile`).  All this is told of
catalogs whose textures do not pass for targets.
-/

namespace EffectChain

open EffectChain.Graph

/-- The plan can be written to the surface: it is an output or a feedback that has a name in
the language, or a step is written to it. -/
def Plan.Target (p : Plan) (o : Surface) : Prop :=
  o.Writable ∧ (Surface.ofName? o.name = some o ∨ ∃ s ∈ p.steps, s.out = some o)

/-- No texture of an effect passes for a surface that the plan can be written to. -/
def Plan.Apart (p : Plan) (d : Descriptor) : Prop :=
  ∀ name, (d.texture? name).isSome = true → ∀ n o, p.Target o →
    textureId (nodeId n) name ≠ surfaceId o

namespace Graph.Expander

variable {p : Plan} {lookup : String → Option Descriptor} {overrides : List ShaderOverride}
    {draft : Draft}
  {s : Step} {d : Descriptor}

/-- An output is a target only as the image of the last pass of a step that is written there. -/
theorem eq_of_outputId_target (hd : p.Apart d) {o : Surface} (ho : p.Target o) {last : Bool}
    {name : String} (hname : d.Yields name) (heq : outputId s last name = surfaceId o) :
    name = "outputTex" ∧ last = true ∧ s.out.isSome = true := by
  have hnode : ∀ suffix, nodeId s.temp ++ "_" ++ suffix ≠ surfaceId o := by
    intro suffix h
    have hprivate : Private s.temp (surfaceId o) := ⟨suffix, h.symm⟩
    exact absurd hprivate.transient (by simp [persistent_surfaceId ho.1])
  unfold outputId at heq
  split at heq
  · split at heq
    · next o' hout => exact ⟨rfl, rfl, by simp [hout]⟩
    · exact absurd (by rw [← heq, String.append_assoc]; rfl) (hnode "out")
  · exact absurd (by rw [← heq, String.append_assoc]; rfl) (hnode "out3d")
  · exact absurd (by rw [← heq, String.append_assoc]; rfl) (hnode "geo")
  · next himage hvolume hgeometry =>
      exact absurd heq (hd name (hname.declared himage hvolume hgeometry) s.temp o ho)

/-! ## images -/

/-- The images that have come out of steps belong to steps, or are where their step is written
to. -/
def Images (p : Plan) (draft : Draft) : Prop :=
  ∀ t f id, draft.flow? t = some f → f.image = some id →
    (∃ n, Private n id) ∨ ∃ s ∈ p.steps, s.temp = t ∧ ∃ o, s.out = some o ∧ id = surfaceId o

/-- An image that comes down a chain belongs to a step: the step it comes from is not written
anywhere. -/
theorem Images.input (h : Images p draft) (hp : p.Linked) (hs : s ∈ p.steps) {id : String}
    (himage : (input draft s).image = some id) : ∃ n, Private n id := by
  obtain ⟨t, f, hsource, hflow, hon⟩ := on_input (c := .image) himage
  rcases h t f id hflow hon with hprivate | ⟨s', hs', htemp, o, ho, -⟩
  · exact hprivate
  · obtain ⟨roots, hforest⟩ := hp.forest
    obtain ⟨u, hu, hutemp, -, -, -, hunwritten⟩ :=
      hforest.linked hs (n := t) (Step.mem_uses.2 (.inl hsource))
    obtain rfl := hforest.eq_of_temp hs' hu (htemp.trans hutemp.symm)
    simp [hunwritten hsource] at ho

theorem Images.setFlow (h : Images p draft) (hs : s ∈ p.steps) {draft' : Draft}
    (hflows : draft'.flows = draft.flows) {f : Flow}
    (hf : ∀ id, f.image = some id → (∃ n, Private n id) ∨ ∃ o, s.out = some o ∧ id = surfaceId o) :
    Images p (draft'.setFlow s.temp f) := by
  intro t f' id hflow himage
  rw [flow?_setFlow, Draft.flow?, hflows] at hflow
  split at hflow
  · next ht =>
      obtain rfl := Option.some.inj hflow
      exact (hf id himage).imp_right fun ho => ⟨s, hs, ht.symm, ho⟩
  · exact h t f' id hflow himage

theorem Images.finish (h : Images p draft) (hs : s ∈ p.steps) (out : Flow) (image : Option String)
    (direct : Bool) :
    Images p (finish s out image direct draft) := by
  rcases finish_cases s out image direct draft with ⟨-, heq⟩
    | ⟨o, ho, ⟨-, heq⟩ | ⟨-, heq⟩ | ⟨id, -, heq⟩⟩ <;> rw [heq]
  · exact h
  · exact h
  · exact h
  · exact h.setFlow hs rfl fun _ himage => .inr ⟨o, ho, (Option.some.inj himage).symm⟩

/-- One more step of the plan. -/
theorem Images.step (h : Images p draft) (hp : p.Linked) (hs : s ∈ p.steps) :
    Images p (Expander.step ⟨p, lookup, overrides⟩ draft s) := by
  cases hd : lookup s.op with
  | none =>
      rw [step_unknown hd]
      have hflow : Images p
          ((draft.addError s (.unknownEffect s.op)).setFlow s.temp (Expander.input draft s)) :=
        h.setFlow hs rfl fun _ himage => .inl (h.input hp hs himage)
      exact hflow.finish hs _ _ _
  | some d =>
      rw [step_known hd]
      have hran := ran_runAll ⟨p, lookup, overrides⟩ draft s d
      refine (h.setFlow hs hran.flows fun id himage => ?_).finish hs _ _ _
      have himage : (runAll ⟨p, lookup, overrides⟩ s d draft).image = some id := himage
      rcases hran.image with heq | heq | ⟨-, o, ho, heq⟩
      · exact .inl (h.input hp hs (heq.symm.trans himage))
      · obtain rfl := Option.some.inj (himage.symm.trans heq)
        exact .inl ⟨s.temp, "out", by rw [String.append_assoc]; rfl⟩
      · exact .inr ⟨o, ho, Option.some.inj (himage.symm.trans heq)⟩

/-! ## the passes of a step -/

/-- A step is written to its target by its last pass alone, or there is an error about it; one
that has no target writes to none. -/
structure Arrives (p : Plan) (s : Step) (own : List Graph.Pass) (errors : List Graph.Error) :
    Prop where
  written : ∀ o, s.out = some o → (∃ e ∈ errors, e.step = s.temp ∧ e.problem = .noResult o) ∨
    ∃ (before : List Graph.Pass) (q : Graph.Pass), own = before ++ [q] ∧
      surfaceId o ∈ q.outputs.values ∧ ∀ q' ∈ before, surfaceId o ∉ q'.outputs.values
  unwritten : s.out = none → ∀ q ∈ own, ∀ o, p.Target o → surfaceId o ∉ q.outputs.values

/-- A pass of an effect writes to a target only as the last one, and only the target of its
step. -/
theorem Becomes.last (hd : p.Apart d) {x : Expander} {place : Nat} {q : EffectChain.Pass}
    {made : Graph.Pass} (h : Becomes x draft s d place q made) {o : Surface} (ho : p.Target o)
    (hwrites : surfaceId o ∈ made.outputs.values) :
    place + 1 = d.passes.length ∧ s.out.isSome = true ∧ "outputTex" ∈ q.outputs.values := by
  obtain ⟨a, ha⟩ := Table.mem_values_iff.1 hwrites
  obtain ⟨name, hname, hyields, hid⟩ := h.outputs a _ ha
  obtain ⟨rfl, hlast, hout⟩ := eq_of_outputId_target hd ho hyields hid.symm
  exact ⟨by simpa using hlast, hout, Table.mem_values_iff.2 ⟨a, hname⟩⟩

/-- When no pass has written to the target of a step, a copy does, or there is an error. -/
theorem arrives_finish {base made own : List Graph.Pass} {out : Flow} {image : Option String}
    (hpasses : draft.graph.passes = base ++ made)
    (hmade : ∀ q ∈ made, ∀ o, p.Target o → surfaceId o ∉ q.outputs.values)
    (hout : ∀ o, s.out = some o → p.Target o ∧ image ≠ some (surfaceId o))
    (hown : (finish s out image false draft).graph.passes = base ++ own) :
    Arrives p s own (finish s out image false draft).graph.errors := by
  rcases finish_cases s out image false draft with ⟨hnone, heq⟩
    | ⟨o, ho, ⟨-, heq⟩ | ⟨himage, -⟩ | ⟨id, -, heq⟩⟩
  · have hnone := hnone.resolve_right (by simp)
    rw [heq, hpasses] at hown
    obtain rfl := List.append_cancel_left hown
    exact ⟨by simp [hnone], fun _ => hmade⟩
  · rw [heq]
    refine ⟨fun o' ho' => .inl ⟨⟨.noResult o, s.temp, s.op⟩, ?_, rfl, ?_⟩, by simp [ho]⟩
    · exact List.mem_append_right _ (List.mem_singleton_self _)
    · rw [Option.some.inj (ho.symm.trans ho')]
  · exact absurd himage (hout o ho).2
  · have hcopied : (finish s out image false draft).graph.passes =
        base ++ (made ++ [copy s out id (surfaceId o)]) := by
      rw [heq, ← List.append_assoc, ← hpasses]
      rfl
    obtain rfl := List.append_cancel_left (hown.symm.trans hcopied)
    refine ⟨fun o' ho' => .inr ⟨made, _, rfl, ?_, fun q hq => hmade q hq o' (hout o' ho').1⟩,
      by simp [ho]⟩
    rw [Option.some.inj (ho'.symm.trans ho)]
    exact List.mem_singleton_self _

theorem arrives_step (hp : p.Linked) (hlookup : ∀ op d, lookup op = some d → p.Apart d)
    (h : Images p draft) (hs : s ∈ p.steps) {own : List Graph.Pass}
    (hown : (Expander.step ⟨p, lookup, overrides⟩ draft s).graph.passes =
      draft.graph.passes ++ own) :
    Arrives p s own (Expander.step ⟨p, lookup, overrides⟩ draft s).graph.errors := by
  have htarget : ∀ o, s.out = some o → p.Target o :=
    fun o ho => ⟨hp.writable s hs o ho, .inr ⟨s, hs, ho⟩⟩
  have hprivate : ∀ {n id} {o : Surface}, Private n id → p.Target o → id ≠ surfaceId o := by
    rintro n id o hprivate ho rfl
    exact absurd hprivate.transient (by simp [persistent_surfaceId ho.1])
  have hinput : ∀ o, s.out = some o → (input draft s).image ≠ some (surfaceId o) := by
    intro o ho himage
    obtain ⟨n, hn⟩ := h.input hp hs himage
    exact hprivate hn (htarget o ho) rfl
  cases hd : lookup s.op with
  | none =>
      rw [step_unknown hd] at hown ⊢
      have hnone : ∀ q ∈ ([] : List Graph.Pass), ∀ o, p.Target o →
        surfaceId o ∉ q.outputs.values := by simp
      exact arrives_finish (List.append_nil _).symm hnone (fun o ho => ⟨htarget o ho, hinput o ho⟩)
        hown
  | some d =>
      rw [step_known hd] at hown ⊢
      have hran := ran_runAll ⟨p, lookup, overrides⟩ draft s d
      generalize runAll ⟨p, lookup, overrides⟩ s d draft = w at hran hown ⊢
      obtain ⟨made, hmade, hlength, hbecomes⟩ := hran.passes
      have hlast : ∀ i q, made[i]? = some q → ∀ o, p.Target o → surfaceId o ∈ q.outputs.values →
          i + 1 = d.passes.length ∧ w.direct = true := by
        intro i q hq o ho hwrites
        obtain ⟨e, he, hbecome⟩ := hbecomes i q hq
        obtain ⟨hi, hout, hvalue⟩ := hbecome.last (hlookup _ _ hd) ho hwrites
        refine ⟨hi, hran.direct.2 ⟨rfl, hout, e, ?_, hvalue⟩⟩
        rw [List.getLast?_eq_getElem?, ← hi, Nat.add_sub_cancel, he]
      cases hdirect : w.direct with
      | false =>
          rw [hdirect] at hown
          refine arrives_finish hmade (fun q hq o ho hwrites => ?_)
            (fun o ho => ⟨htarget o ho, fun himage => ?_⟩) hown
          · obtain ⟨i, hi⟩ := List.getElem?_of_mem hq
            simp [(hlast i q hi o ho hwrites).2] at hdirect
          · rcases hran.image with heq | heq | ⟨hw, -⟩
            · exact hinput o ho (heq.symm.trans himage)
            · have hnode : Private s.temp (nodeId s.temp ++ "_out") :=
                ⟨"out", by rw [String.append_assoc]; rfl⟩
              exact hprivate hnode (htarget o ho) (Option.some.inj (heq.symm.trans himage))
            · simp [hw] at hdirect
      | true =>
          obtain ⟨-, hout, e, he, hvalue⟩ := hran.direct.1 hdirect
          obtain ⟨o, ho⟩ := Option.isSome_iff_exists.1 hout
          have hfinish : finish s w.result w.image true (w.draft.setFlow s.temp w.result) =
              w.draft.setFlow s.temp w.result := by
            unfold finish
            rw [ho]
            rfl
          rw [hdirect, hfinish] at hown
          obtain rfl : made = own := List.append_cancel_left (hmade.symm.trans hown)
          refine ⟨fun o' ho' => .inr ?_, by simp [ho]⟩
          obtain rfl := Option.some.inj (ho.symm.trans ho')
          -- the last pass is the one that writes to the target
          rw [List.getLast?_eq_getElem?] at he
          have hpos := (List.getElem?_eq_some_iff.1 he).1
          have hne : made ≠ [] := by
            rintro rfl
            simp only [List.length_nil] at hlength
            omega
          refine ⟨made.dropLast, made.getLast hne, (List.dropLast_append_getLast hne).symm, ?_,
            fun q hq hwrites => ?_⟩
          · have hget : made[d.passes.length - 1]? = some (made.getLast hne) := by
              rw [← hlength, ← List.getLast?_eq_getElem?, List.getLast?_eq_getLast_of_ne_nil hne]
            obtain ⟨e', he', hbecome⟩ := hbecomes _ _ hget
            obtain rfl := Option.some.inj (he.symm.trans he')
            have himage := hbecome.image hvalue
            have hplace : d.passes.length - 1 + 1 = d.passes.length := by omega
            simpa [outputId, ho, hplace] using himage
          · obtain ⟨i, hi⟩ := List.getElem?_of_mem hq
            have hlt := (List.getElem?_eq_some_iff.1 hi).1
            rw [List.getElem?_dropLast] at hi
            rw [List.length_dropLast] at hlt
            have hi :=
              (hlast i q (by simpa [show i < made.length - 1 by omega] using hi) o (htarget o ho)
                hwrites).1
            omega

end Graph.Expander

namespace Plan

open Graph.Expander

variable {p : Plan} {lookup : String → Option Descriptor} {s : Step}

theorem arrives_expand (hp : p.Linked) (hlookup : ∀ op d, lookup op = some d → p.Apart d)
    (overrides : List ShaderOverride) (hs : s ∈ p.steps) :
    Arrives p s ((p.expand lookup overrides).passesOf s) (p.expand lookup overrides).errors := by
  obtain ⟨roots, hforest⟩ := hp.forest
  obtain ⟨done, hdone, hown, herrors, -⟩ :=
    exists_draft (hforest.temps ▸ List.nodup_range') lookup overrides hs
  have himages : Images p (p.draftAfter lookup overrides done) := by
    refine draftAfter_induct (P := fun _ draft => Images p draft) ?_ (fun done s draft hpre h => ?_)
      ((List.prefix_append done _).trans hdone)
    · intro t f id hflow
      simp [draftAfter, Draft.flow?] at hflow
    · exact h.step hp (hpre.subset (by simp))
  have harrives := arrives_step hp hlookup himages hs hown
  refine ⟨fun o ho => (harrives.written o ho).imp_left ?_, harrives.unwritten⟩
  rintro ⟨e, he, hstep⟩
  exact ⟨e, herrors.subset he, hstep⟩

/-- In the graph of a plan that is compiled, over effects whose textures do not pass for
surfaces that the plan can be written to, every step with a target has exactly one pass that
writes there, and it is the last pass of the step, or there is an error about the step; the
passes of a step without a target write to no target. -/
theorem written_compile {registry : Registry} (hr : registry.ops.Built) {source : Bytes}
    {options : Options} (h : Plan.compile source registry options = .ok p)
    (lookup : String → Option Descriptor) (hlookup : ∀ op d, lookup op = some d → p.Apart d)
    (overrides : List ShaderOverride) (s : Step) (hs : s ∈ p.steps) :
    (∀ o, s.out = some o →
      (∃ e ∈ (p.expand lookup overrides).errors, e.step = s.temp ∧ e.problem = .noResult o ∧
        e.problem.code = "E003") ∨
        ∃ before q, (p.expand lookup overrides).passesOf s = before ++ [q] ∧
        surfaceId o ∈ q.outputs.values ∧
          ∀ q' ∈ before, surfaceId o ∉ q'.outputs.values) ∧
      (s.out = none → ∀ q ∈ (p.expand lookup overrides).passesOf s, ∀ o, p.Target o →
        surfaceId o ∉ q.outputs.values) := by
  have harrives := arrives_expand (Plan.linked_compile hr h) hlookup overrides hs
  refine ⟨fun o ho => (harrives.written o ho).imp_left ?_, harrives.unwritten⟩
  rintro ⟨e, he, hstep, hproblem⟩
  exact ⟨e, he, hstep, hproblem, by rw [hproblem]; rfl⟩

end Plan

/-! ## lamps of a mixer -/

/-- An effect of two passes: the first one leaves a glow in a texture that all its instances
share, the second one makes an image of it. -/
def glowEffect : Descriptor where
  name := "glow"
  programs := .ofList [("main", {})]
  passes := [
    { program := "main", outputs := .ofList [("color", "globalGlow")] },
    { program := "main", inputs := .ofList [("src", "globalGlow")],
      outputs := .ofList [("color", "outputTex")] }]
  textures := .ofList [("globalGlow", {})]

/-- The glow does not pass for a surface. -/
theorem glow_apart (p : Plan) : p.Apart glowEffect := by
  intro name hname n o ho heq
  have hname : name = "globalGlow" := by
    by_contra hne
    have hbeq : (name == "globalGlow") = false := by simpa using hne
    have hnone : glowEffect.texture? name = none := by
      simp [glowEffect, Descriptor.texture?, Table.get?_ofList, List.lookup_cons, hbeq]
    simp [hnone] at hname
  have hid : textureId (nodeId n) "globalGlow" = "global_glow" := rfl
  rw [hname, hid] at heq
  have hlist := congrArg String.toList heq
  rcases ho.1 with hkind | hkind <;>
    simp [surfaceId, hkind, Surface.name, SurfaceKind.letter] at hlist

/-- The last chain of the mixer is a lamp alone, and it is written to an output. -/
def lampStep : Step :=
  { op := "lamp", temp := 3, ns := { resolved := true, search := ["s"] }, out := some ⟨.output, 1⟩,
    pos := ⟨1, 61⟩ }

/-- The lamp of the last chain writes to its output with the second of its two passes. -/
theorem lamp_writes_last : mixer.ops.Built ∧ Plan.compile mixerSource mixer {} = .ok mixerPlan ∧
    (∀ op d, (fun _ => some glowEffect : String → Option Descriptor) op = some d →
      mixerPlan.Apart d) ∧
    lampStep ∈ mixerPlan.steps ∧ (mixerPlan.expand fun _ => some glowEffect).errors = [] ∧
    ∃ before q, (mixerPlan.expand fun _ => some glowEffect).passesOf lampStep = before ++ [q] ∧
      "global_o1" ∈ q.outputs.values ∧ ∀ q' ∈ before, "global_o1" ∉ q'.outputs.values := by
  have hcompile : Plan.compile mixerSource mixer {} = .ok mixerPlan :=
    Plan.compile_eq_ok_iff.2 ⟨mixerProgram, mixer_parse, mixer_plan⟩
  have hcatalog : ∀ op d, (fun _ => some glowEffect : String → Option Descriptor) op = some d →
      mixerPlan.Apart d := fun _ _ hd => Option.some.inj hd ▸ glow_apart mixerPlan
  have hmem : lampStep ∈ mixerPlan.steps := by simp [mixerPlan, lampStep]
  have hclean : (mixerPlan.expand fun _ => some glowEffect).errors = [] := by decide +kernel
  have hwritten := (Plan.written_compile mixer_built hcompile _ hcatalog [] lampStep hmem).1 _ rfl
  refine ⟨mixer_built, hcompile, hcatalog, hmem, hclean, hwritten.resolve_left ?_⟩
  rintro ⟨e, he, -⟩
  simp [hclean] at he

end EffectChain
