import EffectChain.Proofs.Graph.Passes

/-!
# EffectChain.Proofs.Graph.Programs

The programs of a graph, and what its passes run.

The effects of the steps declare programs (`declared`).  Each is registered under the name that
`Expander.program` gives it, and of two under one name the later one stays
(`Plan.get?_programs_expand`).  A graph that copies results has a program for that
(`Plan.get?_blit_expand`), whose name none of the others has.
-/

namespace EffectChain

open EffectChain.Graph

/-- The programs that the effects of some steps declare, with their steps, in the order in which
they are registered. -/
def declared (lookup : String → Option Descriptor) (steps : List Step) :
    List (Step × String × Shader) :=
  steps.flatMap fun s => ((lookup s.op).elim [] (·.programs.entries)).map (s, ·)

/-- A program is declared by a step when the step's effect has it. -/
theorem mem_declared {lookup : String → Option Descriptor} {steps : List Step} {s : Step}
    {name : String} {shader : Shader} : (s, name, shader) ∈ declared lookup steps ↔
      s ∈ steps ∧ ∃ d, lookup s.op = some d ∧ d.programs.get? name = some shader := by
  simp only [declared, List.mem_flatMap, List.mem_map, Prod.mk.injEq]
  constructor
  · rintro ⟨s, hs, e, he, rfl, rfl⟩
    cases hd : lookup s.op with
    | none => simp [hd] at he
    | some d => exact ⟨hs, d, rfl, Table.mem_entries_iff.1 (by simpa [hd] using he)⟩
  · rintro ⟨hs, d, hd, hshader⟩
    exact ⟨s, hs, (name, shader), by simpa [hd] using Table.mem_entries_iff.2 hshader, rfl, rfl⟩

namespace Graph.Expander

variable {x : Expander} {s : Step} {d : Descriptor} {draft : Draft}

/-- A program of a step is named after its effect. -/
theorem slash_mem_program (x : Expander) (s : Step) (name : String) (shader : Shader) :
    '/' ∈ (x.program s name shader).1.toList := by
  unfold program
  dsimp only
  split <;> simp

theorem ne_blit_of_slash {id : String} (h : '/' ∈ id.toList) : id ≠ "blit" := by
  rintro rfl
  exact absurd h (by decide)

theorem program_ne_blit (x : Expander) (s : Step) (name : String) (shader : Shader) :
    (x.program s name shader).1 ≠ "blit" := ne_blit_of_slash (slash_mem_program x s name shader)

/-- The passes of an effect register nothing. -/
theorem programs_runAll (x : Expander) (s : Step) (d : Descriptor) (draft : Draft) :
    (x.runAll s d draft).draft.graph.programs = (x.declare s d draft).graph.programs := by
  refine runAll_induct
    (P := fun _ w => w.draft.graph.programs = (x.declare s d draft).graph.programs) rfl
    fun w i p _ hw => ?_
  have hinputs := binds_bindInputs x s d (input draft s) i p.inputs w.draft
  rw [pass_eq]
  exact ((binds_bindAll s d i p.outputs _).programs.trans hinputs.programs).trans hw

/-- What is registered for a step is what its effect declares. -/
theorem programs_declare (x : Expander) (s : Step) (d : Descriptor) (draft : Draft) :
    (x.declare s d draft).graph.programs =
      (d.programs.entries.map fun e => x.program s e.1 e.2).foldl (fun t e => t.insert e.1 e.2)
        draft.graph.programs := by
  have hprograms : ∀ (es : List (String × Shader)) (draft : Draft),
      (es.foldl (fun draft e => draft.addProgram (x.program s e.1 e.2).1 (x.program s e.1 e.2).2)
        draft).graph.programs =
        (es.map fun e => x.program s e.1 e.2).foldl (fun t e => t.insert e.1 e.2)
            draft.graph.programs := by
    intro es
    induction es with
    | nil => exact fun _ => rfl
    | cons e es ih => exact fun draft => ih _
  rw [← hprograms]
  exact List.foldlRecOn (motive := fun draft' : Draft => draft'.graph.programs = _)
    (d.textures.entries ++ d.volumes.entries) (fun draft e =>
    draft.addTexture (textureId (nodeId s.temp) e.1) e.2) rfl fun _ ih _ _ => ih

/-- What a step leaves under a name: the last of the programs of its effect that has it, else
what was there. -/
theorem get?_programs_step (x : Expander) (draft : Draft) (s : Step) {id : String}
    (hid : id ≠ "blit") :
    (x.step draft s).graph.programs.get? id =
      (((declared x.lookup [s]).map fun e => x.program e.1 e.2.1 e.2.2).reverse.lookup id).or
        (draft.graph.programs.get? id) := by
  have hfinish : ∀ out image direct draft',
      (finish s out image direct draft').graph.programs.get? id =
      draft'.graph.programs.get? id := by
    intro out image direct draft'
    rcases finish_cases s out image direct draft' with ⟨-, heq⟩
      | ⟨o, -, ⟨-, heq⟩ | ⟨-, heq⟩ | ⟨image, -, heq⟩⟩ <;>
      rw [heq]
    · rfl
    · rfl
    · exact (Table.get?_insert _ _ _ _).trans (if_neg hid)
  cases hd : x.lookup s.op with
  | none =>
      rw [step_unknown hd, hfinish]
      simp [declared, hd, Draft.setFlow, Draft.addError]
  | some d =>
      rw [step_known hd, hfinish]
      show (x.runAll s d draft).draft.graph.programs.get? id = _
      rw [programs_runAll, programs_declare, Table.get?_foldl_insert]
      simp [declared, hd, Function.comp_def]

/-- The graph has the program that copies results once a pass copies one. -/
def Blits (draft : Draft) : Prop :=
  draft.graph.programs.get? "blit" = if draft.graph.passes.any (·.isCopy) then some copyShader
    else none

/-- Finishing a step keeps the copy program. -/
theorem Blits.finish (h : Blits draft) (s : Step) (out : Flow) (image : Option String)
    (direct : Bool) :
    Blits (finish s out image direct draft) := by
  rcases finish_cases s out image direct draft with ⟨-, heq⟩
    | ⟨o, -, ⟨-, heq⟩ | ⟨-, heq⟩ | ⟨image, -, heq⟩⟩ <;>
    rw [heq]
  · exact h
  · exact h
  · exact h
  · simp [Blits, Draft.setFlow, Draft.addPass, Draft.addProgram, copy]

/-- A step keeps the copy program. -/
theorem Blits.step (h : Blits draft) (x : Expander) (s : Step) : Blits (x.step draft s) := by
  cases hd : x.lookup s.op with
  | none =>
      have herror : Blits
        ((draft.addError s (.unknownEffect s.op)).setFlow s.temp (input draft s)) := h
      rw [step_unknown hd]
      exact herror.finish s _ _ _
  | some d =>
      have hmade : (x.runAll s d draft).draft.graph.passes.any (·.isCopy) =
          draft.graph.passes.any (·.isCopy) := by
        obtain ⟨own, hown, -, hmade⟩ := (ran_runAll x draft s d).passes
        have hnone : own.any (·.isCopy) = false := by
          refine List.any_eq_false.2 fun q hq => ?_
          obtain ⟨i, hi⟩ := List.getElem?_of_mem hq
          obtain ⟨p, -, hp⟩ := hmade i q hi
          simp [hp.isCopy]
        rw [hown, List.any_append, hnone, Bool.or_false]
      have hprograms : (x.runAll s d draft).draft.graph.programs.get? "blit" =
          draft.graph.programs.get? "blit" := by
        rw [programs_runAll, programs_declare, Table.get?_foldl_insert]
        have hnone : ((d.programs.entries.map fun e => x.program s e.1 e.2).reverse.lookup "blit") =
            none := by
          refine List.lookup_eq_none_iff.2 fun e he => ?_
          obtain ⟨e, -, rfl⟩ := List.mem_map.1 (List.mem_reverse.1 he)
          simpa using (program_ne_blit x s e.1 e.2).symm
        rw [hnone, Option.none_or]
      have hrun : Blits
          ((x.runAll s d draft).draft.setFlow s.temp (x.runAll s d draft).result) := by
        show (x.runAll s d draft).draft.graph.programs.get? "blit" =
          if (x.runAll s d draft).draft.graph.passes.any (·.isCopy) then some copyShader else none
        rw [hprograms, hmade]
        exact h
      rw [step_known hd]
      exact hrun.finish s _ _ _

/-- A pass of a step is a copy to its target, or a pass of its effect. -/
theorem StepPasses.made_or_copy {own : List Graph.Pass} (h : StepPasses x draft s own)
    {q : Graph.Pass} (hq : q ∈ own) : (∃ out image target, q = copy s out image target) ∨
      ∃ d place p uniforms inputs outputs, x.lookup s.op = some d ∧ d.passes[place]? = some p ∧
        q = x.made s d uniforms place p inputs outputs := by
  have hcopied : ∀ {copies}, Copies s copies → q ∈ copies → ∃ out image target,
      q = copy s out image target := by
    rintro copies (rfl | ⟨out, image, o, -, rfl⟩) hq
    · simp at hq
    · exact ⟨out, image, surfaceId o, List.mem_singleton.1 hq⟩
  cases h with
  | unknown _ hcopies => exact .inl (hcopied hcopies hq)
  | known hd _ hmade hcopies =>
      rcases List.mem_append.1 hq with hq | hq
      · obtain ⟨i, hi⟩ := List.getElem?_of_mem hq
        obtain ⟨p, hp, hbecomes⟩ := hmade i q hi
        exact .inr ⟨_, i, p, _, _, _, hd, hp, hbecomes.made⟩
      · exact .inl (hcopied hcopies hq)

end Graph.Expander

namespace Plan

variable (p : Plan) (lookup : String → Option Descriptor) (overrides : List ShaderOverride)

/-- Under every name the graph has the last program that was registered by it. -/
theorem get?_programs_expand {id : String} (hid : id ≠ "blit") :
    (p.expand lookup overrides).programs.get? id =
      ((declared lookup p.steps).map fun e =>
        Expander.program ⟨p, lookup, overrides⟩ e.1 e.2.1 e.2.2).reverse.lookup id := by
  have hdone : ∀ done, (p.draftAfter lookup overrides done).graph.programs.get? id =
      ((declared lookup done).map fun e =>
        Expander.program ⟨p, lookup, overrides⟩ e.1 e.2.1 e.2.2).reverse.lookup id := by
    intro done
    induction done using List.reverseRecOn with
    | nil => rfl
    | append_singleton done s ih =>
        rw [draftAfter_concat, Expander.get?_programs_step _ _ _ hid, ih]
        simp only [declared, List.flatMap_append, List.map_append, List.reverse_append,
          List.lookup_append]
  exact hdone p.steps

/-- The graph has the program that copies results if one of its passes copies one. -/
theorem get?_blit_expand : (p.expand lookup overrides).programs.get? "blit" =
    if (p.expand lookup overrides).passes.any (·.isCopy) then some copyShader else none := by
  have hdone : ∀ done, Expander.Blits (p.draftAfter lookup overrides done) := by
    intro done
    induction done using List.reverseRecOn with
    | nil => rfl
    | append_singleton done s ih =>
        rw [draftAfter_concat]
        exact ih.step _ s
  exact hdone p.steps

/-- A pass of the graph is a copy to the target of a step, or a pass of its effect. -/
theorem made_or_copy {q : Graph.Pass} (hq : q ∈ (p.expand lookup overrides).passes) :
    ∃ s ∈ p.steps, (∃ out image target, q = Expander.copy s out image target) ∨
      ∃ d place e uniforms inputs outputs, lookup s.op = some d ∧ d.passes[place]? = some e ∧
        q = Expander.made ⟨p, lookup, overrides⟩ s d uniforms place e inputs outputs := by
  revert q
  refine draftAfter_induct (P := fun _ draft => ∀ {q}, q ∈ draft.graph.passes → ∃ s ∈ p.steps,
    (∃ out image target, q = Expander.copy s out image target) ∨
      ∃ d place e uniforms inputs outputs, lookup s.op = some d ∧ d.passes[place]? = some e ∧
        q = Expander.made ⟨p, lookup, overrides⟩ s d uniforms place e inputs outputs)
    (fun hq => by simp [draftAfter] at hq) (fun done s draft hdone ih q hq => ?_)
      (List.prefix_refl p.steps)
  obtain ⟨own, hown, hblock⟩ := Expander.stepPasses_step ⟨p, lookup, overrides⟩ draft s
  rw [hown] at hq
  rcases List.mem_append.1 hq with hq | hq
  · exact ih hq
  · exact ⟨s, hdone.subset (by simp), hblock.made_or_copy hq⟩

end Plan

end EffectChain
