import EffectChain.Engine.Basic
import EffectChain.Proofs.Catalog.FailedInstall
import EffectChain.Proofs.Graph.SameText
import EffectChain.Proofs.Render.CleanFrame
import EffectChain.Render.Recorder

/-!
# EffectChain.Proofs.Engine.Overrides

Which shaders an engine runs, given all the source it was given before.

New source is not loaded when it replaces no shader and its plan and the catalog are those
of the running program.  The shaders that the running program had replaced stay in it then.

* `Engine.Course` — the engines that a new one comes to, with the calls on the way;
* `recompile_cases` — accepted source repeats the running program or is loaded;
* `last_load_decides` — the running graph is the one of the last source with the overrides
  of the last call that was loaded, and of no call before it;
* `amber_stays` — so a shader that was replaced stays when the same source is given again.
-/

namespace EffectChain

open EffectChain.Graph (ShaderOverride)

/-! ## the catalog under an engine -/

/-- The second catalog is the first one later: it counts on, and while it does not the
effects stay. -/
def Catalog.Later (c c' : Catalog) : Prop :=
  c.generation ≤ c'.generation ∧ (c'.generation = c.generation → c'.effects = c.effects)

namespace Catalog.Later

variable {c c' c'' : Catalog}

theorem refl (c : Catalog) : c.Later c := ⟨Nat.le_refl _, fun _ => rfl⟩

/-- A catalog later than a later one is later. -/
theorem trans (h : c.Later c') (h' : c'.Later c'') : c.Later c'' := by
  refine ⟨Nat.le_trans h.1 h'.1, fun heq => ?_⟩
  have hmiddle : c'.generation = c.generation := by
    have := h.1
    have := h'.1
    omega
  rw [h'.2 (heq.trans hmiddle.symm), h.2 hmiddle]

/-- A catalog is later after uninstalling. -/
theorem uninstall (l : Library) (owner : String) :
    l.catalog.Later (l.uninstall owner).1.catalog := by
  unfold Library.uninstall
  split
  · exact refl _
  · exact ⟨Nat.le_succ _, fun heq => absurd heq (Nat.succ_ne_self _)⟩

/-- A file that is installed counts, and so does the removal of an earlier version when the
file is refused. -/
theorem install (l : Library) (f : CatalogFile) : l.catalog.Later (l.install f).1.catalog := by
  have hremoved := uninstall l (Library.ownerName f)
  cases hinstall : (l.install f).2 with
  | some err =>
    have hrefused : l.install f = ((l.install f).1, some err) := Prod.ext rfl hinstall
    rw [Library.install_refused hrefused]
    unfold Library.afterRefusal
    dsimp only
    split
    · exact refl _
    · split <;> exact hremoved
  | none =>
    obtain ⟨-, namespaces, ops, enums, -, -, hl⟩ := Library.install_accepted hinstall
    rw [hl]
    exact hremoved.trans ⟨Nat.le_succ _, fun heq => absurd heq (Nat.succ_ne_self _)⟩

end Catalog.Later

namespace Engine

/-! ## the calls of an engine -/

/-- New source that was accepted: the shaders it replaced, its plan, and the catalog it was
expanded against. -/
structure Call where
  overrides : List ShaderOverride
  plan : Plan
  catalog : Catalog

/-- A call that replaces no shader, with the plan and the catalog of another one. -/
structure Call.Repeats (c load : Call) : Prop where
  overrides : c.overrides = []
  id : c.plan.id = load.plan.id
  generation : c.catalog.generation = load.catalog.generation

variable {β : Type} [Backend β]

/-- The engines that a new one comes to, and the source it accepted on the way, the last one
first.  Source may be refused in between, catalog files come and go, frames be rendered. -/
inductive Course : Engine β → List Call → Prop
  | new {e : Engine β} (hnew : e.current = none) : Course e []
  | accepted {e : Engine β} {calls : List Call} (h : Course e calls) {source : String}
      {overrides : List ShaderOverride} {plan : Plan} {kept : Compiled}
      (hplan : Plan.compile (Bytes.ofString source) e.library.registry e.options = .ok plan)
      (hkept : (e.recompile source overrides).2 = .ok kept) :
      Course (e.recompile source overrides).1 (⟨overrides, plan, e.library.catalog⟩ :: calls)
  | refused {e : Engine β} {calls : List Call} (h : Course e calls) {source : String}
      {overrides : List ShaderOverride} {err : EngineError}
      (herr : (e.recompile source overrides).2 = .error err) : Course
        (e.recompile source overrides).1 calls
  | install {e : Engine β} {calls : List Call} (h : Course e calls) (f : CatalogFile) :
      Course { e with library := (e.library.install f).1 } calls
  | uninstall {e : Engine β} {calls : List Call} (h : Course e calls) (owner : String) :
      Course { e with library := (e.library.uninstall owner).1 } calls
  | flags {e : Engine β} {calls : List Call} (h : Course e calls) (namespaces : Namespaces) :
      Course
        { e with library := { e.library with registry := { e.library.registry with namespaces } } }
          calls
  | frame {e : Engine β} {calls : List Call} (h : Course e calls) (state : FrameState) :
      Course (e.frame state).1 calls
  | advance {e : Engine β} {calls : List Call} (h : Course e calls) (ns : Int) : Course
      (e.advance ns).1 calls
  | resize {e : Engine β} {calls : List Call} (h : Course e calls) (width height : Int) :
      Course (e.resize width height).1 calls

/-- The call whose graph runs after some calls: those after it repeat it, and it does not
repeat the one before. -/
structure LastLoad (calls : List Call) (load : Call) : Prop where
  split : ∃ repeats earlier, calls = repeats ++ load :: earlier ∧ (∀ c ∈ repeats, c.Repeats load) ∧
    ∀ c ∈ earlier.head?, ¬ load.Repeats c

theorem LastLoad.mem {calls : List Call} {load : Call} (h : LastLoad calls load) :
    load ∈ calls := by
  obtain ⟨repeats, earlier, rfl, -⟩ := h.split
  simp

/-- The last call repeats the one that is loaded, or is it. -/
theorem LastLoad.head {c load : Call} {calls : List Call} (h : LastLoad (c :: calls) load) :
    c.plan.id = load.plan.id ∧ c.catalog.generation = load.catalog.generation := by
  obtain ⟨repeats, earlier, heq, hrepeats, -⟩ := h.split
  cases repeats with
  | nil =>
    obtain ⟨rfl, -⟩ := List.cons.inj heq
    exact ⟨rfl, rfl⟩
  | cons r repeats =>
    obtain ⟨rfl, -⟩ := List.cons.inj heq
    have hc := hrepeats c List.mem_cons_self
    exact ⟨hc.id, hc.generation⟩

/-- A call that repeats the one before it leaves the graph that runs. -/
theorem LastLoad.repeated {c b load : Call} {calls : List Call} (h : LastLoad (b :: calls) load)
    (hc : c.Repeats b) : LastLoad (c :: b :: calls) load := by
  obtain ⟨hid, hgeneration⟩ := h.head
  obtain ⟨repeats, earlier, heq, hrepeats, hload⟩ := h.split
  refine ⟨c :: repeats, earlier, by rw [heq, List.cons_append], ?_, hload⟩
  rintro x (_ | ⟨_, hx⟩)
  · exact ⟨hc.overrides, hc.id.trans hid, hc.generation.trans hgeneration⟩
  · exact hrepeats x hx

/-! ## what runs -/

/-- An engine runs the graph of the last call that was loaded, and notes it under the
last call. -/
structure Serves (e : Engine β) (last load : Call) : Prop where
  runs : e.Runs (load.plan.expand load.catalog.lookup? load.overrides)
  noted : ∃ k, e.current = some k ∧ k.plan.id = last.plan.id ∧
    k.generation = last.catalog.generation
  later : last.catalog.Later e.library.catalog
  same : last.catalog.effects = load.catalog.effects

omit [Backend β] in
/-- Nothing but new source changes what an engine runs. -/
theorem Serves.keep {e e' : Engine β} {last load : Call} (h : e.Serves last load)
    (hcurrent : e'.current = e.current) (hexec : e.exec.Retains e'.exec)
    (hcatalog : e.library.catalog.Later e'.library.catalog) :
    e'.Serves last load where
  runs := ⟨by rw [hcurrent]; exact h.runs.1, by rw [hexec.current]; exact h.runs.2⟩
  noted := by rw [hcurrent]; exact h.noted
  later := h.later.trans hcatalog
  same := h.same

/-- An engine runs nothing before the first call; after that, the graph of the last one
that was loaded. -/
structure Follows (e : Engine β) (calls : List Call) : Prop where
  idle : calls = [] → e.current = none
  serves : ∀ last ∈ calls.head?, ∃ load, LastLoad calls load ∧ e.Serves last load

omit [Backend β] in
/-- An engine that keeps its graph and its executor follows its calls. -/
theorem Follows.keep {e e' : Engine β} {calls : List Call} (h : e.Follows calls)
    (hcurrent : e'.current = e.current) (hexec : e.exec.Retains e'.exec)
    (hcatalog : e.library.catalog.Later e'.library.catalog) :
    e'.Follows calls where
  idle := fun hnil => hcurrent.trans (h.idle hnil)
  serves := by
    intro last hlast
    obtain ⟨load, hload, hserves⟩ := h.serves last hlast
    exact ⟨load, hload, hserves.keep hcurrent hexec hcatalog⟩

/-! ## new source -/

section Source

variable {e : Engine β} {source : String} {overrides : List ShaderOverride} {plan : Plan}
  {kept : Compiled}

omit [Backend β] in
/-- What a compiled program is made of. -/
theorem compile_ok
    (hplan : Plan.compile (Bytes.ofString source) e.library.registry e.options = .ok plan)
    (h : e.compile source overrides = .ok kept) :
    kept.plan = plan ∧ kept.graph = plan.expand e.library.catalog.lookup? overrides ∧
      kept.generation = e.library.catalog.generation := by
  unfold compile at h
  rw [hplan] at h
  dsimp only at h
  split at h
  · cases h
  · split at h
    · cases h
    · obtain rfl := Except.ok.inj h
      exact ⟨rfl, rfl, rfl⟩

/-- Accepted source repeats the running program, which stays, or is loaded. -/
theorem recompile_cases
    (hplan : Plan.compile (Bytes.ofString source) e.library.registry e.options = .ok plan)
    (hkept : (e.recompile source overrides).2 = .ok kept) :
    (overrides = [] ∧ ∃ old, e.current = some old ∧ old.plan.id = plan.id ∧
        old.generation = e.library.catalog.generation ∧
        (e.recompile source overrides).1 = { e with current := some { old with source } }) ∨
      (¬ (overrides = [] ∧ ∃ old, e.current = some old ∧ old.plan.id = plan.id ∧
        old.generation = e.library.catalog.generation) ∧
        ∃ c exec, c.plan = plan ∧ c.graph = plan.expand e.library.catalog.lookup? overrides ∧
        c.generation = e.library.catalog.generation ∧ exec.current.map (·.graph) = some c.graph ∧
        (e.recompile source overrides).1 = { e with exec, current := some c }) := by
  unfold recompile at hkept ⊢
  split at hkept
  · cases hkept
  · rename_i c hc
    obtain ⟨hcplan, hgraph, hgeneration⟩ := compile_ok hplan hc
    dsimp only at hkept ⊢
    split at hkept
    · rename_i old hnone hruns
      obtain ⟨hcurrent, hsame⟩ := Option.filter_eq_some_iff.1 hruns
      simp only [Bool.and_eq_true, decide_eq_true_eq, hcplan, hgeneration] at hsame
      exact .inl ⟨List.isEmpty_iff.1 hnone, old, hcurrent, hsame.1, hsame.2, rfl⟩
    · rename_i hother
      split at hkept
      · cases hkept
      · rename_i exec hload
        obtain ⟨passes, hcurrent⟩ := Executor.load_current hload
        refine .inr ⟨?_, c, exec, hcplan, hgraph, hgeneration, by rw [hcurrent]; rfl, rfl⟩
        rintro ⟨hnone, old, hold, hid, hgen⟩
        refine hother old (List.isEmpty_iff.2 hnone) (Option.filter_eq_some_iff.2 ⟨hold, ?_⟩)
        simp [hcplan, hgeneration, hid, hgen]

/-- A program that is refused leaves the one before it. -/
theorem recompile_refused {err : EngineError}
    (herr : (e.recompile source overrides).2 = .error err) :
    (e.recompile source overrides).1.current = e.current ∧
    e.exec.Retains (e.recompile source overrides).1.exec ∧
      (e.recompile source overrides).1.library = e.library := by
  unfold recompile at herr ⊢
  split at herr
  · exact ⟨rfl, .refl _, rfl⟩
  · dsimp only at herr ⊢
    split at herr
    · cases herr
    · split at herr
      · rename_i hload
        exact ⟨rfl, Executor.load_retains hload, rfl⟩
      · cases herr

/-- Accepted source is the last one that was loaded, unless it repeats the one before. -/
theorem Follows.recompile {calls : List Call} (h : e.Follows calls)
    (hplan : Plan.compile (Bytes.ofString source) e.library.registry e.options = .ok plan)
    (hkept : (e.recompile source overrides).2 = .ok kept) :
    (e.recompile source overrides).1.Follows (⟨overrides, plan, e.library.catalog⟩ :: calls) := by
  refine ⟨by simp, fun last hlast => ?_⟩
  obtain rfl := Option.some.inj hlast
  rcases recompile_cases hplan hkept with
    ⟨rfl, old, hold, hid, hgen, he'⟩ | ⟨hnot, c, exec, hc, hgraph, hgen, hruns, he'⟩
  · cases calls with
    | nil =>
      rw [h.idle rfl] at hold
      cases hold
    | cons b calls =>
      obtain ⟨load, hload, hserves⟩ := h.serves b rfl
      obtain ⟨k, hk, hkid, hkgen⟩ := hserves.noted
      obtain rfl : old = k := Option.some.inj (hold.symm.trans hk)
      have hrepeats : Call.Repeats ⟨[], plan, e.library.catalog⟩ b :=
        ⟨rfl, hid.symm.trans hkid, hgen.symm.trans hkgen⟩
      have hgraph := hserves.runs.1
      rw [hold] at hgraph
      refine ⟨load, hload.repeated hrepeats, ?_⟩
      rw [he']
      exact ⟨⟨hgraph, hserves.runs.2⟩, ⟨_, rfl, hid, hgen⟩, .refl _,
        (hserves.later.2 hrepeats.generation).trans hserves.same⟩
  · refine ⟨⟨overrides, plan, e.library.catalog⟩,
      ⟨[], calls, rfl, by simp, fun b hb hrepeats => hnot ?_⟩, ?_⟩
    · obtain ⟨load, hload, hserves⟩ := h.serves b hb
      obtain ⟨k, hk, hkid, hkgen⟩ := hserves.noted
      exact ⟨hrepeats.overrides, k, hk, hkid.trans hrepeats.id.symm,
        hkgen.trans hrepeats.generation.symm⟩
    · rw [he']
      exact ⟨⟨congrArg some hgraph, hruns.trans (congrArg some hgraph)⟩, ⟨c, rfl, by rw [hc], hgen⟩,
        .refl _, rfl⟩

end Source

/-! ## every course -/

/-- A frame keeps the current graph and the library, and retains the executor. -/
theorem advance_retains (e : Engine β) (ns : Int) :
    (e.advance ns).1.current = e.current ∧ e.exec.Retains (e.advance ns).1.exec ∧
      (e.advance ns).1.library = e.library := by
  have hretains : ∀ {state : FrameState} {r : Executor β × Option RenderError},
      e.exec.frame state = r →
      e.exec.Retains r.1 := fun h => h ▸ Executor.retains_carried.frame e.exec _
  unfold Engine.advance
  dsimp only
  split
  all_goals
    rename_i hframe
    exact ⟨rfl, hretains hframe, rfl⟩

/-- Every engine follows the calls of its course. -/
theorem Course.follows {e : Engine β} {calls : List Call} (h : Course e calls) :
    e.Follows calls := by
  induction h with
  | new hnew => exact ⟨fun _ => hnew, by simp⟩
  | accepted _ hplan hkept ih => exact ih.recompile hplan hkept
  | refused _ herr ih =>
    obtain ⟨hcurrent, hexec, hlibrary⟩ := recompile_refused herr
    exact ih.keep hcurrent hexec (hlibrary ▸ .refl _)
  | install _ f ih => exact ih.keep rfl (.refl _) (.install _ f)
  | uninstall _ owner ih => exact ih.keep rfl (.refl _) (.uninstall _ owner)
  | flags _ namespaces ih => exact ih.keep rfl (.refl _) (.refl _)
  | @frame e _ _ state ih =>
      exact ih.keep rfl (Executor.retains_carried.frame e.exec state) (.refl _)
  | @advance e _ _ ns ih =>
    obtain ⟨hcurrent, hexec, hlibrary⟩ := e.advance_retains ns
    exact ih.keep hcurrent hexec (hlibrary ▸ .refl _)
  | @resize e _ _ width height ih =>
      exact ih.keep rfl (Executor.resize_retains e.exec width height) (.refl _)

/-- After accepted source an engine runs the graph of that source with the overrides of
the last call that was loaded: its own, unless it replaces no shader and repeats the call
before it.  So what earlier calls replaced does not show, except in the graph that stays.
Plans with the same fingerprint have to be expanded alike. -/
theorem last_load_decides {e : Engine β} {calls : List Call} (h : Course e calls) {source : String}
    {overrides : List ShaderOverride} {plan : Plan} {kept : Compiled}
    (hplan : Plan.compile (Bytes.ofString source) e.library.registry e.options = .ok plan)
    (hkept : (e.recompile source overrides).2 = .ok kept)
    (halike : ∀ c ∈ calls, c.plan.id = plan.id →
      ∀ lookup overrides, c.plan.expand lookup overrides = plan.expand lookup overrides) :
    ∃ load, LastLoad (⟨overrides, plan, e.library.catalog⟩ :: calls) load ∧
      (e.recompile source overrides).1.Runs (plan.expand e.library.catalog.lookup? load.overrides) ∧
      ((e.recompile source overrides).1.Runs (plan.expand e.library.catalog.lookup? overrides) ↔
        plan.expand e.library.catalog.lookup? load.overrides =
          plan.expand e.library.catalog.lookup? overrides) := by
  obtain ⟨load, hload, hserves⟩ := (h.follows.recompile hplan hkept).serves _ rfl
  have hlookup : load.catalog.lookup? = e.library.catalog.lookup? := by
    funext op
    unfold Catalog.lookup?
    rw [hserves.same]
  have hexpand : load.plan.expand load.catalog.lookup? load.overrides =
      plan.expand e.library.catalog.lookup? load.overrides := by
    rw [hlookup]
    rcases List.mem_cons.1 hload.mem with rfl | hearlier
    · rfl
    · exact halike load hearlier hload.head.1.symm _ _
  have hruns := hserves.runs
  rw [hexpand] at hruns
  exact ⟨load, hload, hruns, fun hown => Option.some.inj (hruns.1.symm.trans hown.1),
    fun heq => heq ▸ hruns⟩

/-! ## an amber lamp -/

omit [Backend β] in
/-- An engine that is not strict compiles every plan, whatever its diagnostics. -/
theorem compile_lenient {e : Engine β} {source : String} {overrides : List ShaderOverride}
    {plan : Plan}
    (hplan : Plan.compile (Bytes.ofString source) e.library.registry e.options = .ok plan)
    (hstrict : e.strict = false) :
    e.compile source overrides = .ok
      { source, plan
        graph := plan.expand e.library.catalog.lookup? overrides
        alloc := (plan.expand e.library.catalog.lookup? overrides).allocate
        generation := e.library.catalog.generation } := by
  unfold compile
  rw [hplan]
  simp [hstrict]

/-- Source with another plan than the running one is accepted when the renderer loads its
graph. -/
theorem recompile_other {e : Engine β} {source : String} {overrides : List ShaderOverride}
    {c : Compiled} {exec : Executor β} (hc : e.compile source overrides = .ok c)
    (hother : ∀ old, e.current = some old → old.plan.id ≠ c.plan.id)
    (hload : e.exec.load c.graph (some c.alloc) = (exec, none)) :
    e.recompile source overrides = ({ e with exec, current := some c }, .ok c) := by
  have hruns : e.runs c = none := by
    refine Option.filter_eq_none_iff.2 fun old hold => ?_
    simp [hother old hold]
  unfold recompile
  rw [hc]
  simp only [hruns, hload]
  cases overrides.isEmpty <;> rfl

/-- Source with the plan of the running program is accepted again. -/
theorem recompile_again {e : Engine β} {source : String} {c old : Compiled}
    (hc : e.compile source [] = .ok c) (hold : e.current = some old) (hid : old.plan.id = c.plan.id)
    (hgen : old.generation = c.generation) :
    e.recompile source = ({ e with current := some { old with source } },
      .ok { old with source }) := by
  have hruns : e.runs c = some old := by simp [runs, hold, hid, hgen]
  unfold recompile
  rw [hc]
  simp only [hruns, List.isEmpty_nil]

/-- A lamp and a veil, each with a program of its own. -/
def lantern : Engine Recorder where
  library := {
    registry := stage
    catalog := { effects := .ofList [("lamp", lit "bright"), ("veil", lit "thin")] } }
  exec := { backend := {}, width := 64, height := 32 }
where
  lit (wgsl : String) : Descriptor :=
    { programs := .ofList [("glow", { wgsl })]
      passes := [{ program := "glow", outputs := .ofList [("color", "outputTex")] }] }

/-- The lamp turned amber. -/
def amber : ShaderOverride := ⟨0, "glow", { wgsl := "amber" }⟩

/-- The lantern once the lamp was turned amber. -/
def lanternInAmber : Engine Recorder := (lantern.recompile "search s lamp().veil()" [amber]).1

/-- The lantern accepts the lamp in amber, which it still runs when the lamp as it is
declared is accepted after it. -/
theorem lantern_accepts :
    (∃ kept, (lantern.recompile "search s lamp().veil()" [amber]).2 = .ok kept) ∧
    (∃ kept, (lanternInAmber.recompile "search s lamp().veil()").2 = .ok kept) ∧
    lanternInAmber.library = lantern.library ∧ lanternInAmber.options = lantern.options ∧
    (lanternInAmber.recompile "search s lamp().veil()").1.current.map (·.graph) =
      some ((staged false [] [] ⟨1, 17⟩).expand lantern.library.catalog.lookup? [amber]) := by
  have hc : lantern.compile "search s lamp().veil()" [amber] = _ := compile_lenient compile_dark rfl
  have hfirst := recompile_other hc (by simp [lantern]) (Prod.ext rfl (by decide +kernel))
  obtain ⟨hlibrary, hoptions, hstrict, old, hold, hplan, hgen, hgraph⟩ :
      lanternInAmber.library = lantern.library ∧ lanternInAmber.options = lantern.options ∧
        lanternInAmber.strict = false ∧ ∃ old, lanternInAmber.current = some old ∧
          old.plan = staged false [] [] ⟨1, 17⟩ ∧
            old.generation = lantern.library.catalog.generation ∧
          old.graph = (staged false [] [] ⟨1, 17⟩).expand lantern.library.catalog.lookup?
              [amber] := by
    unfold lanternInAmber
    rw [hfirst]
    exact ⟨rfl, rfl, rfl, _, rfl, rfl, rfl, rfl⟩
  have hplain : Plan.compile (Bytes.ofString "search s lamp().veil()")
      lanternInAmber.library.registry
      lanternInAmber.options = .ok (staged false [] [] ⟨1, 17⟩) := by
    rw [hlibrary, hoptions]
    exact compile_dark
  have hagain :=
    recompile_again (compile_lenient hplain hstrict) hold (by rw [hplan]) (by rw [hgen, hlibrary])
  rw [hfirst, hagain]
  exact ⟨⟨_, rfl⟩, ⟨_, rfl⟩, hlibrary, hoptions, congrArg some hgraph⟩

/-- Either source of the lantern is compiled to the plan of a dark lamp. -/
theorem lantern_plan :
    Plan.compile (Bytes.ofString "search s lamp().veil()") lanternInAmber.library.registry
    lanternInAmber.options = .ok (staged false [] [] ⟨1, 17⟩) := by
  obtain ⟨-, -, hlibrary, hoptions, -⟩ := lantern_accepts
  rw [hlibrary, hoptions]
  exact compile_dark

theorem lantern_decided : ∃ load,
    LastLoad [⟨[], staged false [] [] ⟨1, 17⟩, lanternInAmber.library.catalog⟩,
      ⟨[amber], staged false [] [] ⟨1, 17⟩, lantern.library.catalog⟩] load ∧
    (lanternInAmber.recompile "search s lamp().veil()").1.Runs
      ((staged false [] [] ⟨1, 17⟩).expand lanternInAmber.library.catalog.lookup?
        load.overrides) := by
  obtain ⟨⟨_, hfirst⟩, ⟨_, hsecond⟩, -⟩ := lantern_accepts
  have hcourse : Course lanternInAmber
      [⟨[amber], staged false [] [] ⟨1, 17⟩, lantern.library.catalog⟩] :=
    .accepted (.new rfl) compile_dark hfirst
  obtain ⟨load, hload, hruns, -⟩ := last_load_decides hcourse lantern_plan hsecond (by simp)
  exact ⟨load, hload, hruns⟩

/-- The amber stays when the same source is given again without it: the graph is not the
one of the last call alone. -/
theorem amber_stays : (∃ kept, (lantern.recompile "search s lamp().veil()" [amber]).2 = .ok kept) ∧
    (∃ kept, (lanternInAmber.recompile "search s lamp().veil()").2 = .ok kept) ∧
    ∀ plan, Plan.compile (Bytes.ofString "search s lamp().veil()") lanternInAmber.library.registry
        lanternInAmber.options = .ok plan →
      ¬ (lanternInAmber.recompile "search s lamp().veil()").1.Runs
        (plan.expand lanternInAmber.library.catalog.lookup? []) := by
  obtain ⟨hfirst, hsecond, hlibrary, -, hgraph⟩ := lantern_accepts
  refine ⟨hfirst, hsecond, fun plan hplan hruns => ?_⟩
  obtain rfl : plan = staged false [] [] ⟨1, 17⟩ := Except.ok.inj (hplan.symm.trans lantern_plan)
  have hsame := Option.some.inj (hgraph.symm.trans hruns.1)
  rw [hlibrary] at hsame
  have hamber : ((staged false [] [] ⟨1, 17⟩).expand lantern.library.catalog.lookup?
      [amber]).programs.contains
      "lamp/glow@0" = true := by decide +kernel
  have hplain : ((staged false [] [] ⟨1, 17⟩).expand lantern.library.catalog.lookup?
      []).programs.contains
      "lamp/glow@0" = false := by decide +kernel
  rw [hsame, hplain] at hamber
  cases hamber

end Engine

end EffectChain
