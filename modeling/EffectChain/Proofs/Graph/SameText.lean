import Mathlib
import EffectChain.Engine.Basic
import EffectChain.Proofs.Graph.AnyOrder
import EffectChain.Proofs.Plan.Provenance
import EffectChain.Proofs.Render.Buffers

/-!
# EffectChain.Proofs.Graph.SameText

Programs with the same canonical text.

An engine keeps the program it runs when new source comes to a plan with the same
fingerprint, so the text has to tell everything that expansion looks at.  It tells all
but which parameters that inherit were written in the call (`Plan.marks`), and the
numbers it gives to six places only (`Plan.hidden`).  When these agree as well, and no two
names of a step get one identifier for different things (`Plan.Settled`), the two plans have
one graph, and the graph that is kept is the graph of the new source (`graph_of_same_text`).
-/

namespace EffectChain

open EffectChain.Graph

/-! ## what expansion looks at -/

/-- Which of the parameters that inherit were written in the call. -/
def Step.marks (lookup : String → Option Descriptor) (s : Step) : List Bool :=
  match lookup s.op with
  | some d => (d.params.filter (·.inherits)).map fun p => s.explicit.contains p.name
  | none => []

/-- Which of the parameters that inherit were written, step by step. -/
def Plan.marks (lookup : String → Option Descriptor) (p : Plan) : List (List Bool) :=
  p.steps.map (Step.marks lookup)

/-- A step without what was written and where. -/
def Step.bare (s : Step) : Step := { s with explicit := [], ns := {}, pos := {} }

theorem Step.Alike.bare {s t : Step} (h : s.Alike t) : s.bare = t.bare := by
  unfold Alike at h
  rw [← h]
  rfl

theorem Step.Alike.cases {s t : Step} (h : s.Alike t) :
    ∃ explicit ns pos, t = { s with explicit, ns, pos } := ⟨_, _, _, h.symm⟩

/-- Lists of alike steps are the same up to marks and places. -/
theorem bare_of_alike {ss ts : List Step} (h : List.Forall₂ Step.Alike ss ts) :
    ss.map Step.bare = ts.map Step.bare := by
  induction h with
  | nil => rfl
  | cons hst _ ih => rw [List.map_cons, List.map_cons, hst.bare, ih]

/-- Steps that are alike and have the same marks are folded alike. -/
theorem foldl_alike {σ : Type} {f g : σ → Step → σ} {marks : Step → List Bool}
    (hfg : ∀ s t, s.Alike t → marks s = marks t → ∀ x, f x s = g x t) {ss ts : List Step}
    (h : List.Forall₂ Step.Alike ss ts) (hmarks : ss.map marks = ts.map marks) (x : σ) :
    ss.foldl f x = ts.foldl g x := by
  induction h generalizing x with
  | nil => rfl
  | cons hst _ ih =>
    rw [List.map_cons, List.map_cons, List.cons.injEq] at hmarks
    rw [List.foldl_cons, List.foldl_cons, hfg _ _ hst hmarks.1]
    exact ih hmarks.2 _

/-! ## where chains end -/

/-- The end of a chain does not depend on marks and places. -/
theorem chainEnd_map_bare (steps : List Step) (fuel t : Nat) :
    chainEnd (steps.map Step.bare) fuel t = chainEnd steps fuel t := by
  induction fuel generalizing t with
  | zero => rfl
  | succ fuel ih =>
    have hfind : (steps.map Step.bare).reverse.find? (·.source = some t) =
        (steps.reverse.find? (·.source = some t)).map Step.bare := by
      rw [← List.map_reverse, List.find?_map]
      rfl
    rw [chainEnd, chainEnd, hfind]
    cases steps.reverse.find? (·.source = some t) with
    | none => rfl
    | some s => exact ih s.temp

/-- The target of a chain does not depend on marks and places. -/
theorem target?_map_bare (steps : List Step) (t : Nat) :
    target? (steps.map Step.bare) t = target? steps t := by
  unfold target?
  rw [List.length_map, chainEnd_map_bare, List.find?_map, Option.bind_map]
  rfl

theorem findSome?_out_map_bare (steps : List Step) :
    (steps.map Step.bare).reverse.findSome? (·.out) = steps.reverse.findSome? (·.out) := by
  rw [← List.map_reverse, List.findSome?_map]
  rfl

/-! ## one step -/

/-- The uniforms of a step look at which parameters were written only if these inherit. -/
theorem Graph.Flow.addParams_congr (f : Flow) (d : Descriptor) {s t : Step}
    (hargs : s.args = t.args)
    (h : ∀ p ∈ d.params, p.inherits = true →
      s.explicit.contains p.name = t.explicit.contains p.name) :
    f.addParams d s = f.addParams d t := by
  have hparam : ∀ f : Flow, ∀ p ∈ d.params, addParam s f p = addParam t f p := by
    intro f p hp
    unfold addParam
    rw [hargs]
    cases hinherits : p.inherits with
    | false => simp
    | true => rw [h p hp hinherits]
  unfold addParams
  exact List.foldl_ext _ _ f hparam

/-- Equal marks tell the same about the parameters that inherit. -/
theorem mark_of_marks {lookup : String → Option Descriptor} {s t : Step} {d : Descriptor}
    (hop : s.op = t.op) (hd : lookup s.op = some d) (h : s.marks lookup = t.marks lookup) :
    ∀ p ∈ d.params, p.inherits = true →
    s.explicit.contains p.name = t.explicit.contains p.name := by
  intro p hp hinherits
  simp only [Step.marks, ← hop, hd] at h
  exact List.map_inj_left.1 h p (List.mem_filter.2 ⟨hp, hinherits⟩)

namespace Graph.Expander

variable {p q : Plan} {lookup : String → Option Descriptor} {overrides : List ShaderOverride}

/-- What an input is read from does not depend on marks and places. -/
theorem source?_alike (ht : ∀ n, target? p.steps n = target? q.steps n) (draft : Draft) {s t : Step}
    (h : s.Alike t) (d : Descriptor) (flow : Flow) (name : String) :
    source? ⟨p, lookup, overrides⟩ draft s d flow name = source? ⟨q, lookup, overrides⟩ draft t d
      flow name := by
  obtain ⟨explicit, ns, pos, rfl⟩ := h.cases
  unfold source?
  rw [ht]

/-- Inputs are bound alike for alike steps. -/
theorem bindInputs_alike (ht : ∀ n, target? p.steps n = target? q.steps n) {s t : Step}
    (h : s.Alike t) (d : Descriptor) (flow : Flow) (place : Nat) (inputs : Table String)
    (draft : Draft) :
    bindInputs ⟨p, lookup, overrides⟩ s d flow place inputs draft =
      bindInputs ⟨q, lookup, overrides⟩ t d flow place inputs draft := by
  unfold bindInputs
  congr 1
  funext ⟨draft, bound⟩ ⟨binding, name⟩
  dsimp only
  rw [source?_alike ht draft h]
  obtain ⟨explicit, ns, pos, rfl⟩ := h.cases
  rfl

/-- Passes are expanded alike for alike steps. -/
theorem pass_alike (ht : ∀ n, target? p.steps n = target? q.steps n) {s t : Step} (h : s.Alike t)
    (d : Descriptor) (input : Flow) (uniforms : Table Value) (w : Written) (place : Nat)
    (ps : EffectChain.Pass) :
    pass ⟨p, lookup, overrides⟩ s d input uniforms w place ps =
      pass ⟨q, lookup, overrides⟩ t d input uniforms w place ps := by
  unfold pass
  rw [bindInputs_alike ht h]
  obtain ⟨explicit, ns, pos, rfl⟩ := h.cases
  rfl

/-- A step is expanded as another one that differs in what was written only. -/
theorem step_alike (ht : ∀ n, target? p.steps n = target? q.steps n) {s t : Step} (h : s.Alike t)
    (hmarks : s.marks lookup = t.marks lookup) (draft : Draft) :
    step ⟨p, lookup, overrides⟩ draft s = step ⟨q, lookup, overrides⟩ draft t := by
  have hpass : ∀ d input uniforms w place ps,
      pass ⟨p, lookup, overrides⟩ s d input uniforms w place ps =
      pass ⟨q, lookup, overrides⟩ t d input uniforms w place ps := pass_alike ht h
  obtain ⟨explicit, ns, pos, rfl⟩ := h.cases
  unfold step
  dsimp only
  cases hd : lookup s.op with
  | none => rfl
  | some d =>
    dsimp only [stepIn]
    have hflow : ∀ f : Flow, f.addParams d s = f.addParams d { s with explicit, ns, pos } :=
      fun f => f.addParams_congr d rfl (mark_of_marks rfl hd hmarks)
    rw [hflow]
    simp only [hpass]
    rfl

/-- Steps are expanded alike when they are alike with equal marks. -/
theorem foldl_step_alike (ht : ∀ n, target? p.steps n = target? q.steps n) {ss ts : List Step}
    (h : List.Forall₂ Step.Alike ss ts)
    (hmarks : ss.map (Step.marks lookup) = ts.map (Step.marks lookup)) (draft : Draft) :
    ss.foldl (step ⟨p, lookup, overrides⟩) draft = ts.foldl (step ⟨q, lookup, overrides⟩) draft :=
  foldl_alike (fun _ _ hst hm d => step_alike ht hst hm d) h hmarks draft

end Graph.Expander

/-! ## plans -/

/-- Plans with the same text have one graph when their steps differ in what was written
only, and the parameters that inherit were written in the same calls. -/
theorem Plan.expand_alike {p q : Plan} {lookup : String → Option Descriptor}
    (hsteps : List.Forall₂ Step.Alike p.steps q.steps) (hrender : p.render = q.render)
    (hmarks : p.marks lookup = q.marks lookup) (htext : p.canonical = q.canonical)
    (overrides : List ShaderOverride) : p.expand lookup overrides = q.expand lookup overrides := by
  have hbare := bare_of_alike hsteps
  have ht : ∀ n, target? p.steps n = target? q.steps n := by
    intro n
    rw [← target?_map_bare p.steps, hbare, target?_map_bare]
  have hlast : p.lastWritten = q.lastWritten := by
    rw [lastWritten, lastWritten, ← findSome?_out_map_bare p.steps, hbare, findSome?_out_map_bare]
  have hsurface : p.renderSurface = q.renderSurface := by
    rw [renderSurface, renderSurface, hrender, hlast]
  have hid : p.id = q.id := by rw [id, id, htext]
  unfold expand
  dsimp only
  rw [hsurface, hid, Expander.foldl_step_alike ht hsteps hmarks]

/-- Which names of a step get one identifier depends on its number and its effect only. -/
theorem Plan.Settled.alike {p q : Plan} {lookup : String → Option Descriptor}
    {overrides : List ShaderOverride} (h : p.Settled lookup overrides)
    (hsteps : List.Forall₂ Step.Alike p.steps q.steps) :
    q.Settled lookup overrides := by
  intro t ht d hd
  have hbare : t.bare ∈ p.steps.map Step.bare := bare_of_alike hsteps ▸ List.mem_map_of_mem ht
  obtain ⟨s, hs, hst⟩ := List.mem_map.1 hbare
  have hop : s.op = t.op := congrArg (·.op) hst
  have hprogram : Expander.program ⟨p, lookup, overrides⟩ s =
      Expander.program ⟨q, lookup, overrides⟩ t := by
    change Expander.program ⟨p, lookup, overrides⟩ s.bare =
      Expander.program ⟨q, lookup, overrides⟩ t.bare
    rw [hst]
    rfl
  have htemp : s.temp = t.temp := congrArg (·.temp) hst
  obtain ⟨hprograms, himages, hvolumes⟩ := h s hs d (hop ▸ hd)
  rw [hprogram] at hprograms
  rw [htemp] at himages hvolumes
  exact ⟨hprograms, himages, hvolumes⟩

/-- Joined names hold a character only if one of them or the separator does. -/
theorem notMem_intercalate {c : Char} {sep : String} {names : List String} (hsep : c ∉ sep.toList)
    (h : ∀ name ∈ names, c ∉ name.toList) : c ∉ (sep.intercalate names).toList := by
  rw [String.toList_intercalate]
  induction names with
  | nil => simp
  | cons name names ih =>
    have hname := h name (by simp)
    have hrest := ih fun x hx => h x (List.mem_cons_of_mem name hx)
    cases names with
    | nil => simpa using hname
    | cons next names =>
      rw [List.map_cons] at hrest
      rw [List.map_cons, List.map_cons, List.intercalate_cons_cons, List.mem_append,
        List.mem_append, not_or, not_or]
      exact ⟨⟨hname, hsep⟩, hrest⟩

/-! ## engines -/

/-- The program and the renderer of an engine have the graph. -/
def Engine.Runs {β : Type} (e : Engine β) (g : Graph) : Prop :=
  e.current.map (·.graph) = some g ∧ e.exec.current.map (·.graph) = some g

/-- After new source an engine runs the graph of its plan, or the one it ran before. -/
theorem Engine.Runs.recompile {β : Type} [Backend β] {e : Engine β} {g : Graph} (he : e.Runs g)
    {text : String} {q : Plan}
    (hq : Plan.compile (Bytes.ofString text) e.library.registry e.options = .ok q) {kept : Compiled}
    (h : (e.recompile text).2 = .ok kept) :
    (e.recompile text).1.Runs g ∨
    (e.recompile text).1.Runs (q.expand e.library.catalog.lookup?) := by
  unfold Engine.recompile at h ⊢
  split at h
  · cases h
  · rename_i c hc
    have hgraph : c.graph = q.expand e.library.catalog.lookup? := by
      unfold Engine.compile at hc
      rw [hq] at hc
      dsimp only at hc
      split at hc
      · cases hc
      · split at hc
        · cases hc
        · rw [← Except.ok.inj hc]
    dsimp only at h ⊢
    split at h
    · -- the running program is kept with its new text
      rename_i old _ hruns
      have hold := (Option.filter_eq_some_iff.1 hruns).1
      refine .inl ⟨?_, he.2⟩
      have hg := he.1
      rw [hold] at hg
      exact hg
    · split at h
      · cases h
      · rename_i exec hload
        obtain ⟨passes, hcurrent⟩ := Executor.load_current hload
        refine .inr ⟨congrArg some hgraph, ?_⟩
        dsimp only
        rw [hcurrent, Option.map_some, hgraph]

/-- Two programs with the same canonical text have one graph, in whatever order their steps
enter what the effects declare, and an engine that runs the first one runs the graph of the
second after its source.  The names of the registry have to be plain and the closures clear,
or the text can be read in two ways; what the text does not tell has to be the same: the
numbers it gives to six places, and which parameters that inherit were written; and in every
step, names that get one identifier have to stand for the same. -/
theorem graph_of_same_text {registry : Registry} {options₁ options₂ : Options}
    {source₁ source₂ : Bytes} {p q : Plan} {lookup : String → Option Descriptor}
    (hr : registry.isPlain = true) (hp : Plan.compile source₁ registry options₁ = .ok p)
    (hq : Plan.compile source₂ registry options₂ = .ok q) (hpc : p.isClear = true)
    (hqc : q.isClear = true) (hhidden : p.hidden = q.hidden)
    (hmarks : p.marks lookup = q.marks lookup) (htext : p.canonical = q.canonical) :
    (∀ overrides g g', p.Settled lookup overrides → p.Expands lookup overrides g →
      q.Expands lookup overrides g' →
      g = g') ∧
    ∀ (β : Type) [Backend β] (e : Engine β) (text : String) (kept : Compiled) (g g' : Graph),
      Bytes.ofString text = source₂ → e.library.registry = registry → e.options = options₂ →
      e.library.catalog.lookup? = lookup → p.Settled lookup [] → p.Expands lookup [] g →
      q.Expands lookup [] g' →
      e.Runs g → (e.recompile text).2 = .ok kept → (e.recompile text).1.Runs g' := by
  obtain ⟨hpm, hps⟩ := Plan.made_compile hr hp
  obtain ⟨hqm, hqs⟩ := Plan.made_compile hr hq
  obtain ⟨hsteps, hrender⟩ := Plan.eq_of_canonical hr hpm hqm (notMem_intercalate (by decide) hps)
    (notMem_intercalate (by decide) hqs) hpc hqc hhidden htext
  have hgraph : ∀ overrides g g', p.Settled lookup overrides → p.Expands lookup overrides g →
      q.Expands lookup overrides g' → g = g' := by
    intro overrides g g' hsettled hg hg'
    rw [hg.eq_expand hsettled, hg'.eq_expand (hsettled.alike hsteps),
      Plan.expand_alike hsteps hrender hmarks htext overrides]
  refine ⟨hgraph, ?_⟩
  rintro β _ e text kept g g' rfl rfl rfl rfl hsettled hg hg' hruns hkept
  rcases hruns.recompile hq hkept with h | h
  · rwa [hgraph [] g g' hsettled hg hg'] at h
  · rwa [hg'.eq_expand (hsettled.alike hsteps)]

/-! ## a lamp behind a veil -/

/-- Two operations that are lit or not. -/
def stage : Registry where
  ops := {
    specs := .ofList [("lamp", { name := "lamp", args := [{ name := "lit", type := .boolean }] }),
      ("veil", { name := "veil", args := [{ name := "lit", type := .boolean }] })]
    passthrough := ["lamp"] }

/-- A veil is lit as what is behind it, unless its call says otherwise. -/
def stageEffects (op : String) : Option Descriptor :=
  some { params := [{ name := "lit", type := "bool", inherits := op = "veil" }]
         programs := .ofList [("main", { entry := "glow" }), ("haze", { entry := "fade" })]
         textures := .ofList [("globalHaze", .surface), ("haze", .surface)]
         volumes := .ofList [("fog", .plainVolume)]
         passes := [{ program := "main", outputs := .ofList [("color", "outputTex")] }] }

/-- The plan of a lamp and a veil that is not lit itself, with the arguments written for
them and the place of the veil. -/
def staged (lit : Bool) (lampWritten veilWritten : List String) (pos : Pos) : Plan where
  search := ["s"]
  steps :=
    let ns := { resolved := true, search := ["s"] }
    [ { op := "lamp", args := .ofList [("lit", .boolean lit)], explicit := lampWritten, ns,
        pos := ⟨1, 10⟩ },
      { op := "veil", args := .ofList [("lit", .boolean false)], explicit := veilWritten,
        source := some 0, temp := 1, ns, pos } ]

theorem settled_staged : (staged false [] [] ⟨1, 17⟩).Settled stageEffects [] := by
  intro s hs d hd
  obtain rfl := Option.some.inj hd
  rcases List.mem_cons.1 hs with rfl | hs
  · exact ⟨by decide +kernel, by decide +kernel, by decide +kernel⟩
  · obtain rfl := List.mem_singleton.1 hs
    exact ⟨by decide +kernel, by decide +kernel, by decide +kernel⟩

/-- The program of a lamp, with its arguments, and a veil without any. -/
def stageProgram (written : List Keyword) (pos : Pos) : Program where
  search := ["s"]
  statements :=
    let ns := { resolved := true, search := ["s"] }
    [.run { calls := [{ name := "lamp", kwargs := written, ns, pos := ⟨1, 10⟩ },
              { name := "veil", ns, pos }]
            pos := ⟨1, 10⟩ } ⟨1, 10⟩]

/-- The tokens of the program; the arguments of the lamp end before a column. -/
def stageTokens (written : List Token) (col : Nat) : List Token :=
  [token 1 .keyword "search", token 8 .identifier "s", token 10 .identifier "lamp",
    token 14 .lparen "("] ++
    written ++ [token col .rparen ")", token (col + 1) .dot ".", token (col + 2) .identifier "veil",
      token (col + 6) .lparen "(", token (col + 7) .rparen ")", token (col + 8) .endOfInput ""]
where
  token (col : Nat) (kind : TokenKind) (word : String) : Token :=
    ⟨kind, Bytes.ofString word, ⟨1, col⟩⟩

theorem compile_dark : Plan.compile (Bytes.ofString "search s lamp().veil()") stage {} =
    .ok (staged false [] [] ⟨1, 17⟩) := by
  have hscan : Token.scan (Bytes.ofString "search s lamp().veil()") = .ok (stageTokens [] 15) := by
    rw [Bytes.ofString_ofList]
    decide +kernel
  have hparse : Program.ofTokens {} (stageTokens [] 15) = .ok (stageProgram [] ⟨1, 17⟩) := by cbv
  exact Plan.compile_of_stages hscan hparse rfl

theorem compile_switchedOff :
    Plan.compile (Bytes.ofString "search s lamp(lit: false).veil()") stage {} =
    .ok (staged false ["lit"] [] ⟨1, 27⟩) := by
  let written : List Token :=
    [stageTokens.token 15 .identifier "lit", stageTokens.token 18 .colon ":",
    stageTokens.token 20 .keyword "false"]
  have hscan : Token.scan (Bytes.ofString "search s lamp(lit: false).veil()") =
      .ok (stageTokens written 25) := by
    rw [Bytes.ofString_ofList]
    decide +kernel
  have hparse : Program.ofTokens {} (stageTokens written 25) =
      .ok (stageProgram [⟨"lit", .bool false ⟨1, 20⟩, ⟨1, 15⟩⟩] ⟨1, 27⟩) := by cbv
  exact Plan.compile_of_stages hscan hparse rfl

/-- Whether the passes of a graph are lit. -/
def lights (g : Graph) : List Bool :=
  g.passes.map fun p => match p.uniforms.get? "lit" with
    | some (.boolean b) => b
    | _ => false

/-- A lamp that is switched off in its call has the graph of one that is off by itself.
A veil in front of a lamp that is lit is not: the text is the same whether its call says
that it is unlit or not, but it takes the light of the lamp in one case only. -/
theorem lamp_off_same_graph :
    (staged false [] [] ⟨1, 17⟩).Settled stageEffects [] ∧
      (staged false [] [] ⟨1, 17⟩).expand stageEffects = (staged false ["lit"] [] ⟨1, 27⟩).expand
        stageEffects ∧
      (staged true ["lit"] [] ⟨1, 26⟩).canonical = (staged true ["lit"] ["lit"] ⟨1, 26⟩).canonical ∧
      (staged true ["lit"] [] ⟨1, 26⟩).expand stageEffects ≠
        (staged true ["lit"] ["lit"] ⟨1, 26⟩).expand stageEffects := by
  have hmarks : (staged false [] [] ⟨1, 17⟩).marks stageEffects =
      (staged false ["lit"] [] ⟨1, 27⟩).marks stageEffects := by decide
  have hgraph :=
    (graph_of_same_text (by decide +kernel) compile_dark compile_switchedOff (by decide) (by decide)
    rfl hmarks rfl).1 []
  refine ⟨settled_staged,
    hgraph _ _ settled_staged (Plan.expands_expand ..) (Plan.expands_expand ..), rfl, ?_⟩
  intro h
  have hinherited : lights ((staged true ["lit"] [] ⟨1, 26⟩).expand stageEffects) =
    [true, true] := by decide +kernel
  have hwritten : lights ((staged true ["lit"] ["lit"] ⟨1, 26⟩).expand stageEffects) =
    [true, false] := by decide +kernel
  rw [h, hwritten] at hinherited
  exact absurd hinherited (by decide)

end EffectChain
