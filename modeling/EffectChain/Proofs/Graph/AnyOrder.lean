import EffectChain.Proofs.Data.Table
import EffectChain.Proofs.Graph.Passes

/-!
# EffectChain.Proofs.Graph.AnyOrder

Graphs of a plan when the tables of its effects are walked in any order.

What an effect declares stands in tables, which have no order: a step may enter the programs,
the images and the volumes of its effect one after the other as they come (`Plan.Expands`).
`Plan.expand` takes them in the order of their names.  The order matters only when two names
of one step get the same identifier and stand for different things.  Where none do
(`Plan.Settled`), a plan has one graph (`Plan.Expands.eq_expand`).
-/

namespace EffectChain

open EffectChain.Graph

/-- Entries of one name are alike. -/
def Agree {α : Type} (es : List (String × α)) : Prop := ∀ a ∈ es, ∀ b ∈ es, a.1 = b.1 → a.2 = b.2

instance {α : Type} [DecidableEq α] (es : List (String × α)) : Decidable (Agree es) :=
  inferInstanceAs (Decidable (∀ a ∈ es, ∀ b ∈ es, a.1 = b.1 → a.2 = b.2))

namespace Graph.Draft

variable (draft : Draft)

theorem addProgram_comm {a b : String × Shader} (h : a.1 = b.1 → a.2 = b.2) :
    (draft.addProgram a.1 a.2).addProgram b.1 b.2 = (draft.addProgram b.1 b.2).addProgram a.1
      a.2 := by
  simp only [addProgram, Table.insert_comm _ h]

theorem addTexture_comm {a b : String × TextureSpec} (h : a.1 = b.1 → a.2 = b.2) :
    (draft.addTexture a.1 a.2).addTexture b.1 b.2 = (draft.addTexture b.1 b.2).addTexture a.1
      a.2 := by
  simp only [addTexture, Table.insert_comm _ h]

end Graph.Draft

namespace Graph.Expander

variable {x : Expander} {draft draft' : Draft} {s : Step} {d : Descriptor}

/-- Names of a step that get one identifier stand for the same program, image or volume. -/
structure Settled (x : Expander) (s : Step) (d : Descriptor) : Prop where
  programs : Agree (d.programs.entries.map fun e => x.program s e.1 e.2)
  images : Agree (d.textures.entries.map fun e => (textureId (nodeId s.temp) e.1, e.2))
  volumes : Agree (d.volumes.entries.map fun e => (textureId (nodeId s.temp) e.1, e.2))

/-! ## the order of a table -/

/-- Programs that agree may be added in any order. -/
theorem foldl_program_perm {programs : List (String × Shader)}
    (h : programs.Perm d.programs.entries) (hd : x.Settled s d) (draft : Draft) :
    programs.foldl (fun draft e => draft.addProgram (x.program s e.1 e.2).1 (x.program s e.1 e.2).2)
      draft =
      d.programs.entries.foldl (fun draft e =>
        draft.addProgram (x.program s e.1 e.2).1 (x.program s e.1 e.2).2) draft := by
  refine h.foldl_eq' (fun a ha b hb draft => draft.addProgram_comm ?_) draft
  exact hd.programs _ (List.mem_map_of_mem (h.subset ha)) _ (List.mem_map_of_mem (h.subset hb))

/-- Textures that agree may be added in any order. -/
theorem foldl_texture_perm {es fs : List (String × TextureSpec)} (h : es.Perm fs)
    (hfs : Agree (fs.map fun e => (textureId (nodeId s.temp) e.1, e.2))) (draft : Draft) :
    es.foldl (fun draft e => draft.addTexture (textureId (nodeId s.temp) e.1) e.2) draft =
      fs.foldl (fun draft e => draft.addTexture (textureId (nodeId s.temp) e.1) e.2) draft := by
  refine h.foldl_eq' (fun a ha b hb draft => ?_) draft
  have hagree := hfs _ (List.mem_map_of_mem (h.subset ha)) _ (List.mem_map_of_mem (h.subset hb))
  exact draft.addTexture_comm (a := (textureId (nodeId s.temp) a.1, a.2))
    (b := (textureId (nodeId s.temp) b.1, b.2)) hagree

/-- What a step enters does not depend on the order it comes in. -/
theorem enter_perm {programs : List (String × Shader)}
    {images volumes : List (String × TextureSpec)} (hprograms : programs.Perm d.programs.entries)
    (himages : images.Perm d.textures.entries) (hvolumes : volumes.Perm d.volumes.entries)
    (hd : x.Settled s d) (draft : Draft) :
    x.enter s programs (images ++ volumes) draft =
      x.enter s d.programs.entries (d.textures.entries ++ d.volumes.entries) draft := by
  unfold enter
  dsimp only
  rw [foldl_program_perm hprograms hd, List.foldl_append, List.foldl_append,
    foldl_texture_perm himages hd.images, foldl_texture_perm hvolumes hd.volumes]

/-! ## steps -/

/-- A step of a draft, with what its effect declares in any order. -/
inductive Steps (x : Expander) (draft : Draft) (s : Step) : Draft → Prop where
  | unknown (h : x.lookup s.op = none) : x.Steps draft s (x.step draft s)
  | known {d : Descriptor} {programs : List (String × Shader)}
      {images volumes : List (String × TextureSpec)}
      (h : x.lookup s.op = some d) (hprograms : programs.Perm d.programs.entries)
      (himages : images.Perm d.textures.entries) (hvolumes : volumes.Perm d.volumes.entries) :
      x.Steps draft s (x.stepIn draft s d programs (images ++ volumes))

/-- A step in the order of its tables is one of the steps in any order. -/
theorem steps_step (x : Expander) (draft : Draft) (s : Step) :
    x.Steps draft s (x.step draft s) := by
  cases hd : x.lookup s.op with
  | none => exact .unknown hd
  | some d =>
      have heq : x.step draft s = x.stepIn draft s d d.programs.entries
          (d.textures.entries ++ d.volumes.entries) := by
        rw [step, hd]
      rw [heq]
      exact .known hd (.refl _) (.refl _) (.refl _)

/-- A settled step is the same in any order. -/
theorem Steps.eq_step (h : x.Steps draft s draft')
    (hs : ∀ d, x.lookup s.op = some d → x.Settled s d) :
    draft' = x.step draft s := by
  cases h with
  | unknown => rfl
  | known hd hprograms himages hvolumes =>
      rw [step, hd, stepIn, enter_perm hprograms himages hvolumes (hs _ hd)]
      rfl

/-- Steps one after the other. -/
inductive Runs (x : Expander) : Draft → List Step → Draft → Prop where
  | nil (draft : Draft) : x.Runs draft [] draft
  | cons {draft next last : Draft} {s : Step} {rest : List Step} (h : x.Steps draft s next)
      (hrest : x.Runs next rest last) : x.Runs draft (s :: rest) last

/-- Steps in the order of their tables are a run. -/
theorem runs_foldl (x : Expander) (steps : List Step) (draft : Draft) :
    x.Runs draft steps (steps.foldl x.step draft) := by
  induction steps generalizing draft with
  | nil => exact .nil draft
  | cons s rest ih => exact .cons (steps_step x draft s) (ih _)

/-- Settled steps are the same in any order. -/
theorem Runs.eq_foldl {steps : List Step} (h : x.Runs draft steps draft')
    (hs : ∀ s ∈ steps, ∀ d, x.lookup s.op = some d → x.Settled s d) :
    draft' = steps.foldl x.step draft := by
  induction h with
  | nil => rfl
  | cons hstep _ ih =>
      obtain ⟨hfirst, hrest⟩ := List.forall_mem_cons.1 hs
      rw [List.foldl_cons, ← hstep.eq_step hfirst]
      exact ih hrest

end Graph.Expander

/-! ## plans -/

namespace Plan

variable {p : Plan} {lookup : String → Option Descriptor} {overrides : List ShaderOverride}
    {g : Graph}

/-- The plan has the graph, for some order in which its steps enter what their effects
declare. -/
def Expands (p : Plan) (lookup : String → Option Descriptor) (overrides : List ShaderOverride)
    (g : Graph) : Prop :=
  ∃ draft, Expander.Runs ⟨p, lookup, overrides⟩ (p.draftAfter lookup overrides []) p.steps draft ∧
    draft.graph = g

/-- In every step, names that get one identifier stand for the same. -/
def Settled (p : Plan) (lookup : String → Option Descriptor) (overrides : List ShaderOverride) :
    Prop :=
  ∀ s ∈ p.steps, ∀ d, lookup s.op = some d → Expander.Settled ⟨p, lookup, overrides⟩ s d

theorem expands_expand (p : Plan) (lookup : String → Option Descriptor)
    (overrides : List ShaderOverride) :
    p.Expands lookup overrides (p.expand lookup overrides) := ⟨_, Expander.runs_foldl _ _ _, rfl⟩

/-- A plan that is settled has one graph. -/
theorem Expands.eq_expand (h : p.Expands lookup overrides g)
    (hsettled : p.Settled lookup overrides) :
    g = p.expand lookup overrides := by
  obtain ⟨draft, hruns, rfl⟩ := h
  rw [hruns.eq_foldl hsettled]
  rfl

end Plan

/-! ## a haze under two names -/

/-- An effect with an image and a smaller one whose names differ in the letter behind `global`
only. -/
def hazy : Descriptor where
  textures := .ofList [("globalHaze", .surface), ("globalhaze", { width := 8, height := 8 })]

/-- A step of the effect. -/
def hazyPlan : Plan := { steps := [{ op := "haze" }] }

/-- The images share one identifier, so the graph depends on which one is entered last. -/
theorem haze_by_order : ¬ ∀ g, hazyPlan.Expands (fun _ => some hazy) [] g →
    g = hazyPlan.expand (fun _ => some hazy) := by
  let x : Expander := ⟨hazyPlan, fun _ => some hazy, []⟩
  let start := hazyPlan.draftAfter (fun _ => some hazy) [] []
  let reversed := x.stepIn start { op := "haze" } hazy [] (hazy.textures.entries.reverse ++ [])
  intro h
  have hruns : x.Runs start hazyPlan.steps reversed :=
    .cons (.known rfl (.refl _) (List.reverse_perm _) (.refl _)) (.nil _)
  have hsame := congrArg (·.textures.get? "global_haze") (h _ ⟨_, hruns, rfl⟩)
  have hreversed : reversed.graph.textures.get? "global_haze" = some .surface := by decide +kernel
  have hsorted : (hazyPlan.expand fun _ => some hazy).textures.get? "global_haze" =
      some { width := 8, height := 8 } := by decide +kernel
  rw [hreversed, hsorted] at hsame
  exact absurd hsame (by decide)

end EffectChain
