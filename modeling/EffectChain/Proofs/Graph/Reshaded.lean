import EffectChain.Proofs.Graph.Passes

/-!
# EffectChain.Proofs.Graph.Reshaded

The graph of a plan with one more shader that replaces a program of a step.

The passes of the step that run the program run the shader instead, by a name of its own
(`ShaderOverride.reshade`).  All else but the programs of the graph is as without the shader:
the order of the passes, what they are bound to, their uniforms, the textures and the errors.
The two expansions run side by side, and their drafts differ in just this way after every step
(`Expander.step_reshade`); `Plan.expand_reshade` says it of the graphs.
-/

namespace EffectChain

open EffectChain.Graph

namespace Graph

namespace ShaderOverride

/-- The program is the one that is replaced in the step. -/
def replaces (o : ShaderOverride) (s : Step) (name : String) : Bool :=
  o.step = s.temp && o.program = name

/-- The identifier of the shader, in a step of the given effect. -/
def id (o : ShaderOverride) (op : String) : String :=
  op ++ "/" ++ o.program ++ "@" ++ toString o.step

/-- The pass is one of the step that runs the program that is replaced there. -/
def uses (o : ShaderOverride) (lookup : String → Option Descriptor) (q : Graph.Pass) : Bool :=
  q.step = o.step && (lookup q.effect).any fun d => d.programs.contains o.program &&
    d.passes.zipIdx.any fun (p, i) => p.program = o.program && q.id = nodeId o.step ++ "_pass_" ++
      toString i

/-- The pass with the shader for its program, where it is replaced. -/
def reshade (o : ShaderOverride) (lookup : String → Option Descriptor) (q : Graph.Pass) :
    Graph.Pass :=
  if o.uses lookup q then { q with program := o.id q.effect } else q

/-- An override is used by the passes of its step that run its program. -/
theorem uses_iff {o : ShaderOverride} {lookup : String → Option Descriptor} {q : Graph.Pass} :
    o.uses lookup q = true ↔ q.step = o.step ∧ ∃ d, lookup q.effect = some d ∧
    d.programs.contains o.program = true ∧
      ∃ (place : Nat) (p : EffectChain.Pass), d.passes[place]? = some p ∧ p.program = o.program ∧
        q.id = nodeId o.step ++ "_pass_" ++ toString place := by
  simp only [uses, Bool.and_eq_true, decide_eq_true_eq, Option.any_eq_true, List.any_eq_true,
    Prod.exists, List.mem_zipIdx_iff_getElem?]
  grind

end ShaderOverride

/-- The draft with its passes changed, over other programs. -/
def Draft.recast (draft : Draft) (f : Graph.Pass → Graph.Pass) (programs : Table Shader) : Draft :=
  { draft with graph := { draft.graph with passes := draft.graph.passes.map f, programs } }

theorem Draft.recast_addPass (draft : Draft) (f : Graph.Pass → Graph.Pass) (programs : Table Shader)
    (q : Graph.Pass) :
    (draft.addPass q).recast f programs = (draft.recast f programs).addPass (f q) := by
  simp [Draft.recast, Draft.addPass]

namespace Expander

variable {x x' : Expander} {s : Step} {d : Descriptor} {f : Graph.Pass → Graph.Pass}

/-! ## passes and their programs do not matter to the rest -/

/-- Binding inputs does not look at the passes. -/
theorem bindInputs_recast (hplan : x'.plan = x.plan) (flow : Flow) (place : Nat)
    (inputs : Table String) (draft : Draft) (programs : Table Shader) :
    x'.bindInputs s d flow place inputs (draft.recast f programs) =
      ((x.bindInputs s d flow place inputs draft).1.recast f programs,
        (x.bindInputs s d flow place inputs draft).2) := by
  have hone : ∀ (acc : Draft × Table String) (e : String × String),
      x'.bindInput s d flow place (acc.1.recast f programs, acc.2) e =
        ((x.bindInput s d flow place acc e).1.recast f programs,
            (x.bindInput s d flow place acc e).2) := by
    intro acc e
    have hsource : x'.source? (acc.1.recast f programs) s d flow e.2 = x.source? acc.1 s d flow
        e.2 := by
      unfold source?
      rw [hplan]
      rfl
    unfold bindInput
    rw [hsource]
    split
    · next id fresh _ => cases fresh <;> rfl
    · rfl
  exact @List.foldl_hom _ _ _ (fun acc : Draft × Table String => (acc.1.recast f programs, acc.2)) _
    _
    inputs.entries (draft, {}) hone

/-- What the passes of a step have written, over a draft with its passes changed. -/
def Written.recast (w : Written) (f : Graph.Pass → Graph.Pass) (programs : Table Shader) :
    Written :=
  { w with draft := w.draft.recast f programs }

/-- Binding an output does not look at the passes. -/
theorem bindOutput_recast (place : Nat) (last : Bool) (w : Written) (attachment name : String)
    (programs : Table Shader) :
    bindOutput s d place last (w.recast f programs) attachment name =
      (bindOutput s d place last w attachment name).recast f programs := by
  unfold bindOutput
  dsimp only
  split
  · split <;> rfl
  · rfl
  · rfl
  · split <;> rfl

/-- Binding outputs does not look at the passes. -/
theorem bindAll_recast (place : Nat) (outputs : Table String) (w : Written)
    (programs : Table Shader) :
    bindAll s d place outputs (w.recast f programs) = (bindAll s d place outputs w).recast f
      programs := by
  have hone : ∀ (w : Written) (e : String × String),
      bindOutput s d place (place + 1 = d.passes.length) (w.recast f programs) e.1 e.2 =
        (bindOutput s d place (place + 1 = d.passes.length) w e.1 e.2).recast f programs :=
    fun w e => bindOutput_recast place _ w e.1 e.2 programs
  exact @List.foldl_hom _ _ _ (Written.recast · f programs) _ _ outputs.entries
    { w with bound := {} } hone

/-- A pass of a step over changed passes, if it is changed itself. -/
theorem pass_recast (hplan : x'.plan = x.plan) (flow : Flow) (uniforms : Table Value) (w : Written)
    (place : Nat) (p : EffectChain.Pass) (programs : Table Shader)
    (hmade : ∀ inputs outputs, x'.made s d uniforms place p inputs outputs =
      f (x.made s d uniforms place p inputs outputs)) :
    x'.pass s d flow uniforms (w.recast f programs) place p =
      (x.pass s d flow uniforms w place p).recast f programs := by
  rw [pass_eq, pass_eq]
  dsimp only
  have hinputs : x'.bindInputs s d flow place p.inputs (w.recast f programs).draft =
      ((x.bindInputs s d flow place p.inputs w.draft).1.recast f programs,
        (x.bindInputs s d flow place p.inputs w.draft).2) :=
          bindInputs_recast hplan flow place p.inputs w.draft programs
  rw [hinputs]
  generalize x.bindInputs s d flow place p.inputs w.draft = r
  have houtputs :=
    bindAll_recast (s := s) (d := d) (f := f) place p.outputs { w with draft := r.1 } programs
  simp only [Written.recast] at houtputs ⊢
  rw [houtputs, hmade, Draft.recast_addPass]

/-- Finishing a step does not look at the passes. -/
theorem finish_recast
    (hcopy : ∀ out image target, f (copy s out image target) = copy s out image target) (out : Flow)
    (image : Option String) (direct : Bool) (draft : Draft) (programs : Table Shader) :
    ∃ programs', finish s out image direct (draft.recast f programs) =
      (finish s out image direct draft).recast f programs' := by
  cases hout : s.out with
  | none => exact ⟨programs, by simp [finish, hout]⟩
  | some o =>
      cases direct with
      | true => exact ⟨programs, by simp [finish, hout]⟩
      | false =>
          cases image with
          | none =>
              exact ⟨programs,
                by simp [finish, hout, Draft.recast, Draft.addTexture, Draft.addError]⟩
          | some id =>
              by_cases hid : id = surfaceId o
              · exact ⟨programs, by simp [finish, hout, hid, Draft.recast, Draft.addTexture]⟩
              · refine ⟨programs.insert "blit" copyShader, ?_⟩
                have hcopied := hcopy out id (surfaceId o)
                simp only [copy] at hcopied
                simp [finish, hout, hid, Draft.recast, Draft.addTexture, Draft.addProgram,
                  Draft.addPass, Draft.setFlow, hcopied]

/-- What a step declares over changed passes; the programs may be others. -/
theorem declare_recast (x x' : Expander) (s : Step) (d : Descriptor) (f : Graph.Pass → Graph.Pass)
    (draft : Draft) (programs : Table Shader) :
    ∃ programs', x'.declare s d (draft.recast f programs) = (x.declare s d draft).recast f
      programs' := by
  -- registering programs, here by both expanders, changes nothing else
  have hprograms : ∀ (es : List (String × Shader)) (draft : Draft) (programs : Table Shader),
      ∃ programs',
          es.foldl (fun draft e =>
            draft.addProgram (x'.program s e.1 e.2).1 (x'.program s e.1 e.2).2)
          (draft.recast f programs) =
        (es.foldl (fun draft e => draft.addProgram (x.program s e.1 e.2).1 (x.program s e.1 e.2).2)
          draft).recast f
          programs' := by
    intro es
    induction es with
    | nil => exact fun draft programs => ⟨programs, rfl⟩
    | cons e es ih => exact fun draft programs => ih (draft.addProgram _ _) (programs.insert _ _)
  obtain ⟨programs', heq⟩ := hprograms d.programs.entries draft programs
  refine ⟨programs', ?_⟩
  have hone : ∀ (draft : Draft) (e : String × TextureSpec),
      (draft.recast f programs').addTexture (textureId (nodeId s.temp) e.1) e.2 =
        (draft.addTexture (textureId (nodeId s.temp) e.1) e.2).recast f programs' := fun _ _ => rfl
  unfold declare
  rw [heq]
  exact List.foldl_hom (Draft.recast · f programs') hone

/-- One step over changed passes, when its own passes are changed like that. -/
theorem step_recast (hplan : x'.plan = x.plan) (hlookup : x'.lookup = x.lookup)
    (hmade : ∀ d uniforms place p inputs outputs, x.lookup s.op = some d →
      d.passes[place]? = some p →
      x'.made s d uniforms place p inputs outputs = f (x.made s d uniforms place p inputs outputs))
    (hcopy : ∀ out image target, f (copy s out image target) = copy s out image target)
    (draft : Draft) (programs : Table Shader) :
    ∃ programs', x'.step (draft.recast f programs) s = (x.step draft s).recast f programs' := by
  cases hd : x.lookup s.op with
  | none =>
      rw [step_unknown hd, step_unknown (hlookup ▸ hd)]
      exact finish_recast hcopy _ _ _
        ((draft.addError s (.unknownEffect s.op)).setFlow s.temp (input draft s)) programs
  | some d =>
      rw [step_known hd, step_known (hlookup ▸ hd)]
      obtain ⟨programs', hdeclare⟩ := declare_recast x x' s d f draft programs
      have hrun : x'.runAll s d (draft.recast f programs) = (x.runAll s d draft).recast f
          programs' := by
        refine @List.foldl_rel _ _ _ d.passes.zipIdx _ _ _ _
          (fun w' w : Written => w' = w.recast f programs') ?_ ?_
        · rw [hdeclare]
          rfl
        · rintro ⟨p, i⟩ hp _ w rfl
          exact pass_recast hplan _ _ w i p programs' fun inputs outputs =>
            hmade d _ i p inputs outputs hd (List.mem_zipIdx_iff_getElem?.1 hp)
      rw [hrun]
      exact finish_recast hcopy _ _ _
        ((x.runAll s d draft).draft.setFlow s.temp (x.runAll s d draft).result) programs'

/-! ## one more shader -/

section shader

variable (o : ShaderOverride)

/-- The expander with one more shader. -/
def reshade (x : Expander) (o : ShaderOverride) : Expander :=
  { x with overrides := x.overrides ++ [o] }

/-- The last shader that replaces a program of a step stands for it, by a name of its own. -/
theorem program_eq (x : Expander) (s : Step) (name : String) (shader : Shader) :
    x.program s name shader = match x.overrides.reverse.find? (·.replaces s name) with
      | some o => (o.id s.op, o.shader)
      | none => (s.op ++ "/" ++ name, shader) := by
  show (match x.overrides.reverse.find? (·.replaces s name) with
    | some o => (s.op ++ "/" ++ name ++ "@" ++ toString s.temp, o.shader)
    | none => (s.op ++ "/" ++ name, shader)) = _
  cases hfind : x.overrides.reverse.find? (·.replaces s name) with
  | none => rfl
  | some o =>
      have hreplaces := List.find?_some hfind
      simp only [ShaderOverride.replaces, Bool.and_eq_true, decide_eq_true_eq] at hreplaces
      simp only [ShaderOverride.id, hreplaces.1, hreplaces.2]

/-- A program is the new shader where that replaces it, and what it was everywhere else. -/
theorem program_reshade (x : Expander) (s : Step) (name : String) (shader : Shader) :
    (x.reshade o).program s name shader =
      if o.replaces s name then (o.id s.op, o.shader) else x.program s name shader := by
  rw [program_eq, program_eq, reshade, List.reverse_append, List.reverse_singleton,
    List.singleton_append, List.find?_cons]
  cases o.replaces s name <;> rfl

/-- A pass uses the program that is replaced, if it runs it and its step is the one. -/
theorem uses_made (h : x.lookup s.op = some d) {place : Nat} {p : EffectChain.Pass}
    (hp : d.passes[place]? = some p) (uniforms : Table Value) (inputs outputs : Table String) :
    o.uses x.lookup (x.made s d uniforms place p inputs outputs) =
      (o.replaces s p.program && d.programs.contains p.program) := by
  have hlookup : x.lookup (x.made s d uniforms place p inputs outputs).effect = some d := h
  have hstep : (x.made s d uniforms place p inputs outputs).step = s.temp := rfl
  have hid : (x.made s d uniforms place p inputs outputs).id = passId s place := rfl
  rw [Bool.eq_iff_iff, ShaderOverride.uses_iff, hlookup, hstep, hid]
  simp only [Nat.cast_inj, Option.some.injEq, exists_eq_left', ShaderOverride.replaces,
    Bool.and_eq_true, decide_eq_true_eq]
  constructor
  · rintro ⟨htemp, hdeclared, place', p', hp', hprogram, hsame⟩
    rw [← htemp] at hsame
    obtain rfl := passId_injective s hsame
    obtain rfl : p = p' := Option.some.inj (hp.symm.trans hp')
    exact ⟨⟨htemp.symm, hprogram.symm⟩, hprogram ▸ hdeclared⟩
  · rintro ⟨⟨htemp, hprogram⟩, hdeclared⟩
    exact ⟨htemp.symm, hprogram ▸ hdeclared, place, p, hp, hprogram.symm, by rw [htemp]; rfl⟩

/-- A pass made under one more override is the reshaded pass. -/
theorem made_reshade (h : x.lookup s.op = some d) {place : Nat} {p : EffectChain.Pass}
    (hp : d.passes[place]? = some p) (uniforms : Table Value) (inputs outputs : Table String) :
    (x.reshade o).made s d uniforms place p inputs outputs =
      o.reshade x.lookup (x.made s d uniforms place p inputs outputs) := by
  unfold ShaderOverride.reshade
  rw [uses_made o h hp]
  unfold made
  cases hprogram : d.programs.get? p.program with
  | none => simp [Table.contains, hprogram]
  | some shader =>
      cases hreplaces : o.replaces s p.program <;>
        simp [Table.contains, hprogram, program_reshade, hreplaces]

/-- A copy uses no override. -/
theorem uses_copy (lookup : String → Option Descriptor) (s : Step) (out : Flow)
    (image target : String) :
    o.uses lookup (copy s out image target) = false := by
  refine Bool.eq_false_iff.2 fun huses => ?_
  obtain ⟨hstep, -, -, -, place, -, -, -, hid⟩ := ShaderOverride.uses_iff.1 huses
  have htemp : s.temp = o.step := Int.ofNat_inj.1 hstep
  have hlist := congrArg String.toList hid
  simp only [copy, htemp, String.toList_append, List.append_assoc] at hlist
  have hlist := List.append_cancel_left hlist
  simp at hlist

theorem reshade_copy (lookup : String → Option Descriptor) (s : Step) (out : Flow)
    (image target : String) :
    o.reshade lookup (copy s out image target) = copy s out image target := by
  simp [ShaderOverride.reshade, uses_copy]

/-- A step with one more shader, over passes that run it. -/
theorem step_reshade (x : Expander) (o : ShaderOverride) (draft : Draft) (s : Step)
    (programs : Table Shader) :
    ∃ programs', (x.reshade o).step (draft.recast (o.reshade x.lookup) programs) s =
      (x.step draft s).recast (o.reshade x.lookup) programs' := by
  have hplan : (x.reshade o).plan = x.plan := rfl
  have hlookup : (x.reshade o).lookup = x.lookup := rfl
  exact step_recast hplan hlookup
    (fun _ uniforms _ _ inputs outputs hd hp => made_reshade o hd hp uniforms inputs outputs)
    (reshade_copy o x.lookup s) draft programs

end shader

end Expander

end Graph

/-- The graph with one more shader is the one without it, but for its programs and for what the
passes of one step run. -/
theorem Plan.expand_reshade (p : Plan) (lookup : String → Option Descriptor)
    (overrides : List ShaderOverride) (o : ShaderOverride) :
    p.expand lookup (overrides ++ [o]) =
      { p.expand lookup overrides with
        passes := (p.expand lookup overrides).passes.map (o.reshade lookup)
        programs := (p.expand lookup (overrides ++ [o])).programs } := by
  have hdraft : ∀ done, ∃ programs, p.draftAfter lookup (overrides ++ [o]) done =
      (p.draftAfter lookup overrides done).recast (o.reshade lookup) programs := by
    intro done
    induction done using List.reverseRecOn with
    | nil => exact ⟨{}, rfl⟩
    | append_singleton done s ih =>
        obtain ⟨programs, heq⟩ := ih
        rw [draftAfter_concat, draftAfter_concat, heq]
        exact Expander.step_reshade ⟨p, lookup, overrides⟩ o _ s programs
  obtain ⟨programs, heq⟩ := hdraft p.steps
  have hgraph : p.expand lookup (overrides ++ [o]) = _ := congrArg Draft.graph heq
  rw [hgraph]
  rfl

end EffectChain
