import EffectChain.Proofs.Render.Carried
import EffectChain.Render.Recorder

/-!
# EffectChain.Proofs.Render.Stock

What a backend holds: its textures, and the program it accepted last under each name.

A request that is refused leaves the stock alone, and one that is accepted changes it
in one place (`Stocked`).  So the stock after a call of the renderer is known from
the requests that were accepted:

* `Executor.frame_sustains` — a frame changes neither the stock nor what the renderer
  remembers of it;
* `Executor.compile_stock` — the programs that were accepted are laid over the old
  ones, whether or not another one was refused after them.
-/

namespace EffectChain

/-- The textures and the programs of a backend. -/
@[ext]
structure Stock where
  textures : Table TextureSpec := {}
  programs : Table Shader := {}
  deriving DecidableEq

/-- The stock after a request that is accepted. -/
def Stock.after (s : Stock) : Request → Stock
  | .createTexture id spec => { s with textures := s.textures.insert id spec }
  | .destroyTexture id => { s with textures := s.textures.erase id }
  | .compileProgram id shader => { s with programs := s.programs.insert id shader }
  | _ => s

/-- A backend whose stock can be seen.  A refused request has no effect on it, and no
texture is created over another one. -/
class Stocked (β : Type) [Backend β] where
  stock : β → Stock
  stock_accepted {b b' : β} {c : Request} : Backend.submit b c = (b', none) →
    stock b' = (stock b).after c
  stock_refused {b b' : β} {c : Request} {r : Refusal} : Backend.submit b c = (b', some r) →
    stock b' = stock b
  created_fresh {b b' : β} {id : String} {spec : TextureSpec} :
    Backend.submit b (.createTexture id spec) = (b', none) → (stock b).textures.get? id = none

open Stocked

/-! ## the backends of this library -/

namespace Recorder

/-- The textures and programs a recorder checks its requests against. -/
def held (r : Recorder) : Stock := ⟨r.textures, r.programs⟩

theorem held_effect {r r' : Recorder} {c : Request} (h : r.effect c = (r', none)) :
    r'.held = r.held.after c := by
  cases c <;> grind [effect, held, Stock.after]

theorem held_effect_refused {r r' : Recorder} {c : Request} {e : Refusal}
    (h : r.effect c = (r', some e)) :
    r'.held = r.held := by
  cases c <;> grind [effect, held]

/-- A request is refused without an effect on the stock, or it has its effect. -/
theorem submit_cases (r : Recorder) (c : Request) :
    (∃ r' e, r.submit c = (r', some e) ∧ r'.held = r.held) ∨
      ∃ r₁ : Recorder, r₁.held = r.held ∧ r.submit c = r₁.effect c := by
  unfold submit
  split
  · exact .inl ⟨_, _, rfl, rfl⟩
  · dsimp only
    split
    · refine .inl ⟨_, _, rfl, ?_⟩
      split <;> rfl
    · exact .inr ⟨{ r with history := c :: r.history }, rfl, rfl⟩

instance : Stocked Recorder where
  stock := held
  stock_accepted {b b' c} h := by
    rcases submit_cases b c with ⟨r', e, hr, -⟩ | ⟨r₁, hheld, heffect⟩
    · exact absurd (hr.symm.trans h) (by simp)
    · rw [← hheld]
      exact held_effect (heffect.symm.trans h)
  stock_refused {b b' c r} h := by
    rcases submit_cases b c with ⟨r', e, hr, hheld⟩ | ⟨r₁, hheld, heffect⟩
    · obtain rfl := (Prod.mk.inj (hr.symm.trans h)).1
      exact hheld
    · rw [← hheld]
      exact held_effect_refused (heffect.symm.trans h)
  created_fresh {b b' id spec} h := by
    rcases submit_cases b (.createTexture id spec) with ⟨r', e, hr, -⟩ | ⟨r₁, hheld, heffect⟩
    · exact absurd (hr.symm.trans h) (by simp)
    · have hmade : r₁.effect (.createTexture id spec) = (b', none) := heffect.symm.trans h
      rw [← hheld]
      cases habsent : r₁.textures.get? id with
      | none => exact habsent
      | some t => simp [effect, Table.contains, habsent] at hmade

end Recorder

/-- A check of shaders refuses a request itself, or hands it on. -/
theorem ShaderCheck.submit_cases {β : Type} [Backend β] (s : ShaderCheck β) (c : Request) :
    (∃ e, s.submit c = (s, some e)) ∨
      (s.submit c).1.inner = (Backend.submit s.inner c).1 ∧
      (s.submit c).2 = (Backend.submit s.inner c).2 := by
  unfold submit
  dsimp only
  split
  · split
    · exact .inr ⟨rfl, rfl⟩
    · split
      · exact .inr ⟨rfl, rfl⟩
      · exact .inl ⟨_, rfl⟩
  · exact .inr ⟨rfl, rfl⟩

instance {β : Type} [Backend β] [Stocked β] : Stocked (ShaderCheck β) where
  stock b := stock b.inner
  stock_accepted {b b' c} h := by
    rcases b.submit_cases c with ⟨e, hr⟩ | ⟨hstate, hanswer⟩
    · exact absurd (hr.symm.trans h) (by simp)
    · rw [show b.submit c = (b', none) from h] at hstate hanswer
      exact stock_accepted (Prod.ext hstate.symm hanswer.symm)
  stock_refused {b b' c r} h := by
    rcases b.submit_cases c with ⟨e, hr⟩ | ⟨hstate, hanswer⟩
    · obtain rfl := (Prod.mk.inj (hr.symm.trans h)).1
      rfl
    · rw [show b.submit c = (b', some r) from h] at hstate hanswer
      exact stock_refused (Prod.ext hstate.symm hanswer.symm)
  created_fresh {b b' id spec} h := by
    rcases b.submit_cases (.createTexture id spec) with ⟨e, hr⟩ | ⟨hstate, hanswer⟩
    · exact absurd (hr.symm.trans h) (by simp)
    · rw [show b.submit (.createTexture id spec) = (b', none) from h] at hstate hanswer
      exact created_fresh (Prod.ext hstate.symm hanswer.symm)

/-! ## requests of a renderer -/

namespace Executor

variable {β : Type} [Backend β] [Stocked β] {e e' e'' : Executor β}

/-- What the backend of a renderer holds. -/
def stock (e : Executor β) : Stock := Stocked.stock e.backend

omit [Stocked β] in
theorem submit_backend {c : Request} {r : Option Refusal} (h : e.submit c = (e', r)) :
    e' = { e with backend := e'.backend } ∧ Backend.submit e.backend c = (e'.backend, r) := by
  obtain ⟨rfl, rfl⟩ := Prod.mk.inj h
  exact ⟨rfl, rfl⟩

theorem submit_accepted {c : Request} (h : e.submit c = (e', none)) : e'.stock = e.stock.after c :=
  stock_accepted (submit_backend h).2

theorem submit_refused {c : Request} {r : Refusal} (h : e.submit c = (e', some r)) :
    e'.stock = e.stock :=
  stock_refused (submit_backend h).2

/-- A request that is about no texture and no program keeps the stock. -/
theorem submit_idle {c : Request} (hc : ∀ s : Stock, s.after c = s) {r : Option Refusal}
    (h : e.submit c = (e', r)) : e'.stock = e.stock := by
  cases r with
  | none => rw [submit_accepted h, hc]
  | some r => exact submit_refused h

/-- A renderer starts with the stock that its backend has. -/
theorem start_stock {b b' : β} {width height : Int}
    (h : Executor.start b width height = (b', .ok e)) :
    e.stock = Stocked.stock b := by
  have hrun :=
    runList_keeps_of_mem (f := Backend.submit) (fun b' => Stocked.stock b' = Stocked.stock b)
    [.init, .resize (sizeOr width height).1 (sizeOr width height).2] ?_ b rfl
  · unfold Executor.start at h
    dsimp only at h
    split at h
    · simp at h
    · obtain ⟨-, he⟩ := Prod.mk.inj h
      rw [← Except.ok.inj he]
      exact hrun
  · intro b₁ c hc hb₁
    have hidle : ∀ s : Stock, s.after c = s := by
      intro s
      rcases List.mem_cons.1 hc with rfl | hc
      · rfl
      · rw [List.mem_singleton.1 hc]
        rfl
    cases hsub : Backend.submit b₁ c with
    | mk b₂ r =>
        cases r with
        | none => exact (stock_accepted hsub).trans ((hidle _).trans hb₁)
        | some r => exact (stock_refused hsub).trans hb₁

/-- The stock is the same, and so is what the renderer remembers of it.  Surfaces
stay. -/
structure Sustains (e e' : Executor β) : Prop where
  textures : e'.textures = e.textures
  programs : e'.programs = e.programs
  surfaces : ∀ id, e.surfaces.contains id = true → e'.surfaces.contains id = true
  stock : e'.stock = e.stock

namespace Sustains

theorem refl (e : Executor β) : Sustains e e := ⟨rfl, rfl, fun _ h => h, rfl⟩

theorem trans (h : Sustains e e') (h' : Sustains e' e'') : Sustains e e'' :=
  ⟨h'.textures.trans h.textures, h'.programs.trans h.programs, fun id hid =>
    h'.surfaces id (h.surfaces id hid),
    h'.stock.trans h.stock⟩

/-- A request that leaves every stock alone is sustained. -/
theorem submit {c : Request} (hc : ∀ s : Stock, s.after c = s) {r : Option Refusal}
    (h : e.submit c = (e', r)) : Sustains e e' := by
  have hstock := submit_idle hc h
  obtain ⟨rfl, rfl⟩ := Prod.mk.inj h
  exact ⟨rfl, rfl, fun _ h => h, hstock⟩

end Sustains

/-! ## a frame -/

/-- What a renderer holds and remembers of it is carried through a frame. -/
theorem sustains_carried : Carried (β := β) Sustains where
  refl := Sustains.refl
  trans := Sustains.trans
  submit := by
    intro e c hc
    cases c with
    | executePass _ _ => exact .submit (fun _ => rfl) rfl
    | beginFrame _ => exact .submit (fun _ => rfl) rfl
    | endFrame => exact .submit (fun _ => rfl) rfl
    | copyTexture _ _ => exact .submit (fun _ => rfl) rfl
    | present _ => exact .submit (fun _ => rfl) rfl
    | _ => exact hc.elim
  surfaces := fun _ _ hs => ⟨rfl, rfl, hs, rfl⟩
  frames := fun _ _ => ⟨rfl, rfl, fun _ h => h, rfl⟩

/-- A frame changes neither the stock nor what the renderer remembers of it, whether
it succeeds or not. -/
theorem frame_sustains (e : Executor β) (state : FrameState) : Sustains e (e.frame state).1 :=
  sustains_carried.frame e state

end Executor

/-! ## compiling -/

/-- The items a run over a list gets through before something goes wrong. -/
def handled {α σ ε : Type} (f : σ → α → σ × Option ε) : σ → List α → List α
  | _, [] => []
  | s, a :: as =>
    match f s a with
    | (s, none) => a :: handled f s as
    | (_, some _) => []

section handled

variable {α σ ε : Type} {f : σ → α → σ × Option ε}

/-- The actions that are handled come first. -/
theorem handled_prefix (s : σ) (as : List α) : handled f s as <+: as := by
  fun_induction handled f s as with
  | case1 s => exact List.prefix_refl []
  | case2 s a as s' h ih => exact List.cons_prefix_cons.2 ⟨rfl, ih⟩
  | case3 s a as s' e h => exact List.nil_prefix

/-- Without an error every action is handled. -/
theorem handled_of_none {s s' : σ} {as : List α} (h : runList f s as = (s', none)) :
    handled f s as = as := by
  fun_induction handled f s as with
  | case1 s => rfl
  | case2 s a as s₁ hs ih =>
      rw [runList, hs] at h
      rw [ih h]
  | case3 s a as s₁ e hs =>
      rw [runList, hs] at h
      exact absurd (Prod.mk.inj h).2 (by simp)

end handled

namespace Executor

variable {β : Type} [Backend β] [Stocked β] {e e' e'' : Executor β} {g : Graph}

omit [Backend β] [Stocked β] in
/-- The programs that differ stand in the order of their names. -/
theorem changedPrograms_sorted (e : Executor β) (g : Graph) :
    (e.changedPrograms g).Pairwise fun a b => a.1 < b.1 :=
  g.programs.sorted.filter _

/-- Programs are compiled in place: those that are accepted are laid over the old
ones, whether or not another one is refused after them. -/
theorem compile_stock {ps : List (String × Shader)} {r : Option RenderError}
    (h : runList compileProgram e ps = (e', r)) :
    e' = { e with backend := e'.backend } ∧
      e'.stock = { e.stock with
        programs := (handled compileProgram e ps).foldl (fun t p => t.insert p.1 p.2)
          e.stock.programs } := by
  induction ps generalizing e with
  | nil =>
      obtain rfl := (Prod.mk.inj h).1
      exact ⟨rfl, rfl⟩
  | cons p ps ih =>
      cases hsub : e.submit (.compileProgram p.1 p.2) with
      | mk e₁ answer =>
          obtain ⟨hsame, -⟩ := submit_backend hsub
          cases answer with
          | some refusal =>
              have hone : e.compileProgram p =
                  (e₁, some (RenderError.ofRefusal "R001" "CompileProgram" p.1 refusal)) := by
                simp [compileProgram, hsub]
              rw [runList, hone] at h
              obtain rfl := (Prod.mk.inj h).1
              rw [handled, hone]
              exact ⟨hsame, submit_refused hsub⟩
          | none =>
              have hone : e.compileProgram p = (e₁, none) := by simp [compileProgram, hsub]
              rw [runList, hone] at h
              obtain ⟨hrest, hstock⟩ := ih h
              rw [handled, hone, hstock, submit_accepted hsub]
              exact ⟨by rw [hrest, hsame], rfl⟩

/-- The programs of a graph that a load has compiled when it ends. -/
def compiled (e : Executor β) (g : Graph) : List (String × Shader) :=
  if e.disposed then [] else handled compileProgram e (e.changedPrograms g)

/-- A load of the graph gets past its programs. -/
def compiles (e : Executor β) (g : Graph) : Bool :=
  !e.disposed && (runList compileProgram e (e.changedPrograms g)).2.isNone

omit [Stocked β] in
/-- The programs that are compiled are the first of those that changed. -/
theorem compiled_prefix (e : Executor β) (g : Graph) : e.compiled g <+: e.changedPrograms g := by
  unfold compiled
  split
  · exact List.nil_prefix
  · exact handled_prefix e _

omit [Stocked β] in
theorem compiled_of_compiles (h : e.compiles g = true) : e.compiled g = e.changedPrograms g := by
  obtain ⟨hdisposed, hnone⟩ : e.disposed = false ∧ _ = none := by simpa [compiles] using h
  rw [compiled, hdisposed, if_neg (by simp)]
  exact handled_of_none (Prod.ext rfl hnone)

omit [Stocked β] in
theorem compiled_sorted (e : Executor β) (g : Graph) :
    (e.compiled g).Pairwise fun a b => a.1 < b.1 :=
  (e.changedPrograms_sorted g).sublist (e.compiled_prefix g).sublist

/-- The hashes a renderer remembers once a load is through with the programs of a
graph: new ones only when all programs were accepted. -/
def recordedAfter (e : Executor β) (g : Graph) : Table UInt64 :=
  if e.compiles g then (e.changedPrograms g).foldl (fun t (id, s) => t.insert id s.digest)
    e.programs
  else e.programs

/-- Compiling changes the stock by the programs that were compiled. -/
theorem compilePrograms_stock {r : Option RenderError} (hd : e.disposed = false)
    (h : e.compilePrograms g = (e', r)) :
    e' = { e with backend := e'.backend, programs := e.recordedAfter g } ∧
      e'.stock = { e.stock with
        programs := (e.compiled g).foldl (fun t p => t.insert p.1 p.2) e.stock.programs } ∧
      (r = none ↔ e.compiles g = true) := by
  unfold compilePrograms at h
  dsimp only at h
  cases hrun : runList compileProgram e (e.changedPrograms g) with
  | mk e₁ answer =>
      obtain ⟨hsame, hstock⟩ := compile_stock hrun
      rw [hrun] at h
      have hcompiled : e.compiled g = handled compileProgram e (e.changedPrograms g) := by
        simp [compiled, hd]
      cases answer with
      | some err =>
          obtain ⟨rfl, rfl⟩ := Prod.mk.inj h
          have hnot : e.compiles g = false := by simp [compiles, hrun]
          refine ⟨?_, by rw [hstock, hcompiled], by simp [hnot]⟩
          rw [recordedAfter, hnot]
          exact hsame
      | none =>
          obtain ⟨rfl, rfl⟩ := Prod.mk.inj h
          have hall : e.compiles g = true := by simp [compiles, hd, hrun]
          refine ⟨?_, ?_, by simp [hall]⟩
          · rw [recordedAfter, hall]
            rw [hsame]
            rfl
          · rw [hcompiled]
            exact hstock

/-! ## the programs in the other calls -/

/-- A call that compiles nothing. -/
def SamePrograms (e e' : Executor β) : Prop :=
  e'.programs = e.programs ∧ e'.stock.programs = e.stock.programs

namespace SamePrograms

theorem refl (e : Executor β) : SamePrograms e e := ⟨rfl, rfl⟩

theorem trans (h : SamePrograms e e') (h' : SamePrograms e' e'') : SamePrograms e e'' :=
  ⟨h'.1.trans h.1, h'.2.trans h.2⟩

/-- A request that leaves the programs of every stock alone keeps them. -/
theorem submit {c : Request} (hc : ∀ s : Stock, (s.after c).programs = s.programs)
    {r : Option Refusal} (h : e.submit c = (e', r)) : SamePrograms e e' := by
  refine ⟨by rw [(submit_backend h).1], ?_⟩
  cases r with
  | none => rw [submit_accepted h, hc]
  | some r => rw [submit_refused h]

end SamePrograms

theorem Sustains.samePrograms (h : Sustains e e') : SamePrograms e e' :=
  ⟨h.programs, congrArg Stock.programs h.stock⟩

/-- Discarding textures keeps the programs. -/
theorem discard_samePrograms (e : Executor β) (ids : List String) :
    SamePrograms e (e.discard ids) := by
  unfold discard
  induction ids generalizing e with
  | nil => exact .refl e
  | cons id ids ih =>
      cases hsub : e.submit (.destroyTexture id) with
      | mk e₁ r =>
          have hone : SamePrograms e e₁ := .submit (fun _ => rfl) hsub
          have hnoted : SamePrograms e { e₁ with textures := e₁.textures.erase id } := hone
          simp only [List.foldl_cons, hsub]
          exact hnoted.trans (ih _)

/-- Creating textures keeps the programs. -/
theorem createTextures_samePrograms (ts : List (String × TextureSpec)) (e : Executor β)
    (done : List String) :
    SamePrograms e (e.createTextures done ts).1 := by
  induction ts generalizing e done with
  | nil => exact .refl e
  | cons t ts ih =>
      cases hsub : e.submit (.createTexture t.1 (t.2.sized e.width e.height)) with
      | mk e₁ r =>
          have hone : SamePrograms e e₁ := .submit (fun _ => rfl) hsub
          simp only [createTextures, createTexture, hsub]
          cases r with
          | none =>
              have hnoted : SamePrograms e { e₁ with textures := e₁.textures.insert t.1 t.2 } :=
                hone
              exact hnoted.trans (ih _ _)
          | some err => exact hone.trans (discard_samePrograms e₁ done)

/-- Resizing keeps the programs. -/
theorem resize_samePrograms (e : Executor β) (width height : Int) :
    SamePrograms e (e.resize width height).1 := by
  have hrecreate : ∀ (e : Executor β) (t : String × TextureSpec),
      SamePrograms e (e.recreate t).1 := by
    intro e t
    unfold recreate
    split
    · next hsub => exact .submit (fun _ => rfl) hsub
    · next e₁ hsub =>
        exact (SamePrograms.submit (fun _ => rfl) hsub).trans
          (.submit (fun _ => rfl) (Prod.eta _).symm)
  unfold resize
  split
  · exact .refl e
  · split
    · next hsub => exact .submit (fun _ => rfl) hsub
    · next e₁ hsub =>
        exact (SamePrograms.submit (fun _ => rfl) hsub).trans
          (runList_keeps (f := recreate) (SamePrograms e₁) (fun e t h => h.trans (hrecreate e t)) _
            { e₁ with width, height } ⟨rfl, rfl⟩)

/-- Disposing keeps the programs recorded. -/
theorem dispose_samePrograms (e : Executor β) : SamePrograms e e.dispose.1 := by
  unfold dispose
  split
  · exact .refl e
  · exact (discard_samePrograms e e.textures.keys).trans
      (SamePrograms.submit (e := { e.discard e.textures.keys with
        disposed := true, textures := {}, surfaces := {}, current := none }) (fun _ => rfl)
          (Prod.eta _).symm)

/-- What a load does to the programs, whether it succeeds or not. -/
theorem load_programs (e : Executor β) (g : Graph) (alloc : Option Graph.Allocation) :
    (e.load g alloc).1.programs = e.recordedAfter g ∧
      (e.load g alloc).1.stock.programs =
        (e.compiled g).foldl (fun t p => t.insert p.1 p.2) e.stock.programs := by
  unfold load
  dsimp only
  split
  · next hd => simp [recordedAfter, compiles, compiled, hd]
  · next hd =>
      cases hc : e.compilePrograms g with
      | mk e₁ r =>
          obtain ⟨hsame, hstock, -⟩ := compilePrograms_stock (by simpa using hd) hc
          have hdone : e₁.programs = e.recordedAfter g ∧ e₁.stock.programs =
              (e.compiled g).foldl (fun t p => t.insert p.1 p.2) e.stock.programs :=
            ⟨by rw [hsame], by rw [hstock]⟩
          have hrest : ∀ e₂ : Executor β, SamePrograms e₁ e₂ → e₂.programs = e.recordedAfter g ∧
              e₂.stock.programs = (e.compiled g).foldl (fun t p => t.insert p.1 p.2)
                  e.stock.programs :=
            fun e₂ h => ⟨h.1.trans hdone.1, h.2.trans hdone.2⟩
          cases r with
          | some err => exact hdone
          | none =>
              dsimp only
              cases g.passes.mapM LoadedPass.read with
              | error err => exact hdone
              | ok passes =>
                  dsimp only
                  generalize e₁.newTextures _ _ = ts
                  have hcreate := createTextures_samePrograms ts e₁ []
                  cases hct : e₁.createTextures [] ts with
                  | mk e₂ r =>
                      rw [hct] at hcreate
                      cases r with
                      | some err => exact hrest e₂ hcreate
                      | none => exact hrest _ (hcreate.trans (discard_samePrograms _ _))

end Executor

end EffectChain
