import Mathlib.Data.Prod.Basic
import EffectChain.Proofs.Render.Stock

/-!
# EffectChain.Proofs.Render.ProgramCache

The hashes a renderer remembers against the programs its backend holds.

Hashes are remembered together, when every program of a graph was accepted, while the
backend replaces its programs one by one.  A load that stops at a program it cannot
compile leaves the ones before it replaced under their old hashes; these are the stale
programs of a session (`Executor.staleAfter`).

* `recorded_digest_iff` — in every session a remembered hash is the hash of the program
  the backend holds if and only if the program is not stale, and a load that skips a
  program leaves the program of the new graph under the same condition.
-/

namespace EffectChain

namespace Executor

variable {β : Type} {e : Executor β} {g : Graph}

/-! ## which programs a load compiles -/

/-- A program is compiled when its hash is not the remembered one. -/
theorem lookup_changedPrograms (e : Executor β) (g : Graph) (id : String) :
    (e.changedPrograms g).lookup id =
      (g.programs.get? id).filter fun s => decide (e.programs.get? id ≠ some s.digest) :=
  Table.lookup_filter g.programs.sorted (fun id s => decide (e.programs.get? id ≠ some s.digest)) id

variable [Backend β]

/-- What is compiled is a changed program of the graph. -/
theorem changed_of_compiled {id : String} {s : Shader} (h : (e.compiled g).lookup id = some s) :
    g.programs.get? id = some s ∧ e.programs.get? id ≠ some s.digest := by
  have hmem := (Table.lookup_eq_some_iff_mem (e.compiled_sorted g) id s).1 h
  have hchanged := (Table.lookup_eq_some_iff_mem (e.changedPrograms_sorted g) id s).2
    ((e.compiled_prefix g).subset hmem)
  rw [lookup_changedPrograms, Option.filter_eq_some_iff] at hchanged
  exact ⟨hchanged.1, by simpa using hchanged.2⟩

/-- The remembered hash of a program after its graph was compiled. -/
theorem get?_recordedAfter (h : e.compiles g = true) (id : String) :
    (e.recordedAfter g).get? id = (((e.changedPrograms g).lookup id).map Shader.digest).or
      (e.programs.get? id) := by
  have hfold : e.recordedAfter g =
      ((e.changedPrograms g).map fun p => (p.1, p.2.digest)).foldl (fun t p => t.insert p.1 p.2)
          e.programs := by
    rw [recordedAfter, if_pos h, List.foldl_map]
  have hlookup : ∀ ps : List (String × Shader),
      (ps.map fun p => (p.1, p.2.digest)).lookup id = (ps.lookup id).map Shader.digest := by
    intro ps
    induction ps with
    | nil => rfl
    | cons p ps ih =>
        rw [List.map_cons, Table.lookup_cons_eq, Table.lookup_cons_eq, ih]
        split <;> rfl
  have hsorted : ((e.changedPrograms g).map fun p => (p.1, p.2.digest)).Pairwise fun a b =>
      a.1 < b.1 :=
    List.pairwise_map.2 (e.changedPrograms_sorted g)
  rw [hfold, Table.get?_foldl_insert_sorted hsorted, hlookup]

/-- A load that succeeds compiled every program it asked for. -/
theorem compiles_of_load {e' : Executor β} {alloc : Option Graph.Allocation}
    (h : e.load g alloc = (e', none)) : e.compiles g = true := by
  obtain ⟨e₁, e₂, passes, hd, hcompile, -⟩ := load_none h
  unfold compilePrograms at hcompile
  dsimp only at hcompile
  split at hcompile
  · simp at hcompile
  · next hrun => simp [compiles, hd, hrun]

theorem mem_map_fst_iff {es : List (String × Shader)} {id : String} :
    id ∈ es.map (·.1) ↔ ∃ s, es.lookup id = some s := by
  rw [← Option.isSome_iff_exists, List.lookup_isSome_iff, List.mem_map]
  constructor
  · rintro ⟨p, hp, rfl⟩
    exact ⟨p, hp, beq_self_eq_true _⟩
  · rintro ⟨p, hp, hk⟩
    exact ⟨p, hp, (beq_iff_eq.1 hk).symm⟩

/-! ## sessions -/

/-- The programs whose hash does not describe what the backend holds, after a load.  A
load that compiles every program it asks for takes these off the list; one that does
not puts the remembered ones among those it replaced on it. -/
def staleAfter (e : Executor β) (g : Graph) (stale : List String) : List String :=
  if e.compiles g then stale.filter fun id => !((e.changedPrograms g).map (·.1)).contains id
  else stale ++ ((e.compiled g).map (·.1)).filter e.programs.contains

variable [Stocked β]

/-- The renderers that calls lead to, whatever their outcome, with the programs that
are stale.  Between the calls the backend may change in any way that keeps its stock,
such as to refuse other requests. -/
inductive Session : Executor β → List String → Prop
  | start {b b' : β} {width height : Int} {e : Executor β}
      (h : Executor.start b width height = (b', .ok e)) : Session e []
  | backend {e : Executor β} {stale : List String} (h : Session e stale) (b : β)
      (hb : Stocked.stock b = e.stock) : Session { e with backend := b } stale
  | load {e : Executor β} {stale : List String} (h : Session e stale) (g : Graph)
      (alloc : Option Graph.Allocation) : Session (e.load g alloc).1 (e.staleAfter g stale)
  | frame {e : Executor β} {stale : List String} (h : Session e stale) (state : FrameState) :
      Session (e.frame state).1 stale
  | resize {e : Executor β} {stale : List String} (h : Session e stale) (width height : Int) :
      Session (e.resize width height).1 stale
  | dispose {e : Executor β} {stale : List String} (h : Session e stale) : Session e.dispose.1 stale

/-- The hash of the program that the backend holds under a name. -/
def heldDigest (e : Executor β) (id : String) : Option UInt64 :=
  (e.stock.programs.get? id).map Shader.digest

/-- A remembered hash is that of the program the backend holds, but for the stale
programs, of which it never is. -/
def Coherent (e : Executor β) (stale : List String) : Prop :=
  ∀ id digest, e.programs.get? id = some digest → (e.heldDigest id = some digest ↔ id ∉ stale)

/-- A program that a load compiled is in the backend, every other one is as it was. -/
theorem heldDigest_load (e : Executor β) (g : Graph) (alloc : Option Graph.Allocation)
    (id : String) :
    (e.load g alloc).1.heldDigest id =
      (((e.compiled g).lookup id).map Shader.digest).or (e.heldDigest id) := by
  rw [heldDigest, (load_programs e g alloc).2, Table.get?_foldl_insert_sorted (e.compiled_sorted g),
    heldDigest]
  cases (e.compiled g).lookup id <;> rfl

theorem Coherent.of_samePrograms {e' : Executor β} {stale : List String} (h : e.Coherent stale)
    (hsame : SamePrograms e e') : e'.Coherent stale := by
  intro id digest hid
  rw [heldDigest, hsame.2]
  exact h id digest (hsame.1 ▸ hid)

/-- A load that compiles every program of its graph makes these coherent. -/
theorem Coherent.load_compiles {stale : List String} (h : e.Coherent stale)
    (hall : e.compiles g = true) (alloc : Option Graph.Allocation) :
    (e.load g alloc).1.Coherent (e.staleAfter g stale) := by
  intro id digest hid
  rw [(load_programs e g alloc).1, get?_recordedAfter hall] at hid
  rw [heldDigest_load, compiled_of_compiles hall, staleAfter, if_pos hall]
  cases hchanged : (e.changedPrograms g).lookup id with
  | some s =>
      have hmem : id ∈ (e.changedPrograms g).map (·.1) := mem_map_fst_iff.2 ⟨s, hchanged⟩
      rw [hchanged] at hid
      simp_all
  | none =>
      have hnot : id ∉ (e.changedPrograms g).map (·.1) := by
        rw [mem_map_fst_iff, hchanged]
        simp
      rw [hchanged] at hid
      have hold := h id digest (by simpa using hid)
      simpa [List.mem_filter, hnot] using hold

/-- A load that stops at a program leaves the remembered ones before it stale. -/
theorem Coherent.load_stops {stale : List String} (h : e.Coherent stale)
    (hstop : e.compiles g = false) (alloc : Option Graph.Allocation) :
    (e.load g alloc).1.Coherent (e.staleAfter g stale) := by
  intro id digest hid
  rw [(load_programs e g alloc).1, recordedAfter, hstop] at hid
  replace hid : e.programs.get? id = some digest := hid
  rw [heldDigest_load, staleAfter, hstop]
  cases hcompiled : (e.compiled g).lookup id with
  | some s =>
      have hmem : id ∈ (e.compiled g).map (·.1) := mem_map_fst_iff.2 ⟨s, hcompiled⟩
      have hrecorded : e.programs.contains id = true := Table.contains_iff.2 ⟨digest, hid⟩
      have hdiffers : s.digest ≠ digest := by
        rintro rfl
        exact (changed_of_compiled hcompiled).2 hid
      have hstale : id ∈ stale ++ ((e.compiled g).map (·.1)).filter e.programs.contains :=
        List.mem_append_right _ (List.mem_filter.2 ⟨hmem, hrecorded⟩)
      simp [hdiffers, hstale]
  | none =>
      have hnot : id ∉ (e.compiled g).map (·.1) := by
        rw [mem_map_fst_iff, hcompiled]
        simp
      have hold := h id digest hid
      simpa [List.mem_filter, hnot] using hold

theorem Session.coherent {stale : List String} (h : Session e stale) : e.Coherent stale := by
  induction h with
  | start h =>
      intro id digest hid
      obtain ⟨w, h, rfl⟩ := start_fresh h
      simp at hid
  | backend h b hb ih => exact ih.of_samePrograms ⟨rfl, congrArg Stock.programs hb⟩
  | @load e stale h g alloc ih =>
      cases hc : e.compiles g with
      | true => exact ih.load_compiles hc alloc
      | false => exact ih.load_stops hc alloc
  | frame h state ih => exact ih.of_samePrograms (frame_sustains _ state).samePrograms
  | resize h width height ih => exact ih.of_samePrograms (resize_samePrograms _ width height)
  | dispose h ih => exact ih.of_samePrograms (dispose_samePrograms _)

end Executor

open Executor in
/-- In every session a remembered hash is the hash of the program that the backend
accepted last under the name if and only if the program is not stale.  Hence a load
that succeeds leaves the backend with the program its graph asks for, but for a program
that it skips and that is stale. -/
theorem recorded_digest_iff {β : Type} [Backend β] [Stocked β] {e : Executor β}
    {stale : List String} (h : Executor.Session e stale) :
    (∀ id digest, e.programs.get? id = some digest → (e.heldDigest id = some digest ↔ id ∉ stale)) ∧
      ∀ g alloc e', e.load g alloc = (e', none) → ∀ id s, g.programs.get? id = some s →
        (e'.heldDigest id = some s.digest ↔ (e.programs.get? id = some s.digest → id ∉ stale)) := by
  refine ⟨h.coherent, ?_⟩
  intro g alloc e' hload id s hs
  have hheld : e'.heldDigest id = _ := hload ▸ heldDigest_load e g alloc id
  rw [hheld, compiled_of_compiles (compiles_of_load hload), lookup_changedPrograms, hs]
  by_cases hskip : e.programs.get? id = some s.digest
  · simpa [hskip, Option.filter_some] using h.coherent id s.digest hskip
  · simp [hskip, Option.filter_some]

/-- A graph with one program. -/
def tint : Graph where
  passes := [{ id := "a", program := "tint", outputs := Table.ofList [("color", "global_o0")] }]
  programs := Table.ofList [("tint", { wgsl := "fn red() {}" })]
  textures := Table.ofList [("global_o0", .surface)]
  render := "global_o0"

/-- The graph with its program edited and one more program. -/
def retint : Graph where
  passes := [{ id := "a", program := "tint", outputs := Table.ofList [("color", "global_o0")] }]
  programs := Table.ofList [("tint", { wgsl := "fn blue() {}" }),
    ("zoom", { wgsl := "fn zoom() {}" })]
  textures := Table.ofList [("global_o0", .surface)]
  render := "global_o0"

/-- A backend that refuses one program. -/
def withoutZoom : Recorder := { failures := [(("CompileProgram", "zoom"), "no")] }

/-- A renderer that runs `tint` on this backend. -/
def tinted : Executor Recorder :=
  (Executor.load { backend := (runList Recorder.submit withoutZoom [.init, .resize 64 32]).1,
                   width := 64, height := 32 }
    tint none).1

theorem tinted_session : Executor.Session tinted [] := by
  have hstart : Executor.start withoutZoom 64 32 = (_, .ok _) := rfl
  rw [tinted]
  exact .load (.start hstart) tint none

/-- What is recorded after the load that the backend refuses, and the load that gets through. -/
theorem retint_facts : tinted.staleAfter retint [] = ["tint"] ∧
    (tinted.load retint none).1.programs.get? "tint" =
      some (Shader.digest { wgsl := "fn red() {}" }) ∧
    ((tinted.load retint none).1.load tint none).2 = none ∧
    tint.programs.get? "tint" = some { wgsl := "fn red() {}" } := by
  decide +kernel

/-- The backend refuses a program after it accepted the edited one before it.  The
renderer remembers the hash of the program that was replaced, so that the graph with
that program is loaded again without it. -/
theorem retint_leaves_stale :
    Executor.Session (tinted.load retint none).1 ["tint"] ∧
      (tinted.load retint none).1.programs.get? "tint" =
        some (Shader.digest { wgsl := "fn red() {}" }) ∧
      (tinted.load retint none).1.heldDigest "tint" ≠
        some (Shader.digest { wgsl := "fn red() {}" }) ∧
      ((tinted.load retint none).1.load tint none).2 = none ∧
      ((tinted.load retint none).1.load tint none).1.heldDigest "tint" ≠
        some (Shader.digest { wgsl := "fn red() {}" }) := by
  obtain ⟨hstale, hrecorded, hagain, hasked⟩ := retint_facts
  have hsession : Executor.Session (tinted.load retint none).1 ["tint"] :=
    hstale ▸ tinted_session.load retint none
  obtain ⟨hheld, hloaded⟩ := recorded_digest_iff hsession
  refine ⟨hsession, hrecorded, ?_, hagain, ?_⟩
  · intro hsame
    exact (hheld "tint" _ hrecorded).1 hsame (by decide)
  · intro hsame
    exact (hloaded tint none _ (Prod.snd_eq_iff.1 hagain) "tint" _ hasked).1 hsame hrecorded
      (by decide)

end EffectChain
