import EffectChain.Proofs.Render.FailedLoad

/-!
# EffectChain.Proofs.Render.Transcript

The requests of a renderer, with the answers of the backend.

A `Scribe` hands every request on and writes it down with its answer.  It can stand before
any backend, so what is proved of the log of a scribe is proved for every backend and every
pattern of refusals.  The log only grows, and every call of a renderer adds to it
(`Executor.Logs`).

* `load_outside`, `resize_outside`, `dispose_outside` — the calls that are no frames make no
  request of a frame and count none.
-/

namespace EffectChain

/-- A request and its answer. -/
abbrev Exchange := Request × Option Refusal

/-- A backend whose requests are written down. -/
structure Scribe (β : Type) where
  inner : β
  /-- The requests so far with their answers. -/
  log : List Exchange := []
  deriving Repr

namespace Scribe

variable {β : Type} [Backend β]

def submit (s : Scribe β) (c : Request) : Scribe β × Option Refusal :=
  let (inner, r) := Backend.submit s.inner c
  ({ inner, log := s.log ++ [(c, r)] }, r)

instance : Backend (Scribe β) := ⟨submit⟩

/-- A scribe answers what the backend behind it answers. -/
theorem submit_eq_iff {s s' : Scribe β} {c : Request} {r : Option Refusal} :
    Backend.submit s c = (s', r) ↔
      Backend.submit s.inner c = (s'.inner, r) ∧ s'.log = s.log ++ [(c, r)] := by
  obtain ⟨inner, log⟩ := s'
  show s.submit c = _ ↔ _
  unfold submit
  cases Backend.submit s.inner c with
  | mk b a => grind

instance [Stocked β] : Stocked (Scribe β) where
  stock s := Stocked.stock s.inner
  stock_accepted h := Stocked.stock_accepted (submit_eq_iff.1 h).1
  stock_refused h := Stocked.stock_refused (submit_eq_iff.1 h).1
  created_fresh h := Stocked.created_fresh (submit_eq_iff.1 h).1

end Scribe

namespace Executor

variable {β : Type} {e e' e'' : Executor (Scribe β)} {xs ys : List Exchange}

/-- The renderer has made the exchanges and has counted no frame. -/
structure Logs (e : Executor (Scribe β)) (xs : List Exchange) (e' : Executor (Scribe β)) :
    Prop where
  log : e'.backend.log = e.backend.log ++ xs
  frames : e'.frames = e.frames

namespace Logs

theorem nil (hbackend : e'.backend = e.backend) (hframes : e'.frames = e.frames) : Logs e [] e' :=
  ⟨by simp [hbackend], hframes⟩

theorem append (h : Logs e xs e') (h' : Logs e' ys e'') : Logs e (xs ++ ys) e'' :=
  ⟨by rw [h'.log, h.log, List.append_assoc], h'.frames.trans h.frames⟩

theorem submit [Backend β] {c : Request} {r : Option Refusal} (h : e.submit c = (e', r)) :
    Logs e [(c, r)] e' := by
  obtain ⟨hsame, hanswer⟩ := submit_backend h
  exact ⟨(Scribe.submit_eq_iff.1 hanswer).2, by rw [hsame]⟩

/-- A request on top of exchanges that were made. -/
theorem concat [Backend β] {c : Request} {r : Option Refusal} (h : Logs e xs e')
    (hsub : e'.submit c = (e'', r)) :
    Logs e (xs ++ [(c, r)]) e'' :=
  h.append (.submit hsub)

end Logs

/-- The renderer has made requests that are no part of a frame, and has counted no frame. -/
def Outside (e e' : Executor (Scribe β)) : Prop := ∃ xs, Logs e xs e' ∧ ∀ x ∈ xs, ¬ x.1.OfFrame

namespace Outside

theorem nil (hbackend : e'.backend = e.backend) (hframes : e'.frames = e.frames) : Outside e e' :=
  ⟨[], .nil hbackend hframes, by simp⟩

/-- Two steps outside of frames are outside. -/
theorem trans (h : Outside e e') (h' : Outside e' e'') : Outside e e'' := by
  obtain ⟨xs, hlogs, hxs⟩ := h
  obtain ⟨ys, hlogs', hys⟩ := h'
  refine ⟨xs ++ ys, hlogs.append hlogs', fun x hx => ?_⟩
  rcases List.mem_append.1 hx with hx | hx
  · exact hxs x hx
  · exact hys x hx

/-- What else is noted of the renderer does not matter. -/
theorem of_same {e₁ : Executor (Scribe β)} (h : Outside e₁ e') (hbackend : e₁.backend = e.backend)
    (hframes : e₁.frames = e.frames) : Outside e e' :=
  (Outside.nil hbackend hframes).trans h

theorem submit [Backend β] {c : Request} {r : Option Refusal} (hc : ¬ c.OfFrame)
    (h : e.submit c = (e', r)) :
    Outside e e' :=
  ⟨[(c, r)], .submit h, by simpa using hc⟩

end Outside

variable [Backend β]

/-- A renderer starts with two requests. -/
theorem start_log {s s' : Scribe β} {width height : Int}
    (h : Executor.start s width height = (s', .ok e)) :
    ∃ w h : Int, e.backend.log = s.log ++ [(Request.init, none), (Request.resize w h, none)] := by
  unfold Executor.start at h
  dsimp only at h
  generalize sizeOr width height = size at h
  cases hinit : Scribe.submit s .init with
  | mk s₁ a =>
      cases hsize : Scribe.submit s₁ (.resize size.1 size.2) with
      | mk s₂ a' =>
          rw [show runList Backend.submit s _ = runList Scribe.submit s _ from rfl, runList, hinit]
            at h
          have hlog := (Scribe.submit_eq_iff.1 hinit).2
          have hlog' := (Scribe.submit_eq_iff.1 hsize).2
          cases a with
          | some a => simp at h
          | none =>
              dsimp only at h
              rw [runList, hsize] at h
              cases a' with
              | some a => simp at h
              | none =>
                  obtain ⟨rfl, he⟩ := Prod.mk.inj h
                  obtain rfl := Except.ok.inj he
                  refine ⟨size.1, size.2, ?_⟩
                  show s₂.log = _
                  rw [hlog', hlog, List.append_assoc]
                  rfl

/-- Compiling programs is outside of frames. -/
theorem compilePrograms_outside (e : Executor (Scribe β)) (g : Graph) :
    Outside e (e.compilePrograms g).1 := by
  have hall := runList_keeps (f := compileProgram) (Outside e)
    (fun e₁ p h => h.trans (.submit (c := .compileProgram p.1 p.2) (by simp [Request.OfFrame]) rfl))
    (e.changedPrograms g) e (.nil rfl rfl)
  unfold compilePrograms
  dsimp only
  split <;> next hrun => rw [hrun] at hall; exact hall.trans (.nil rfl rfl)

/-- Discarding textures is outside of frames. -/
theorem discard_outside (e : Executor (Scribe β)) (ids : List String) :
    Outside e (e.discard ids) := by
  unfold discard
  induction ids generalizing e with
  | nil => exact .nil rfl rfl
  | cons id ids ih =>
      have hone : Outside e (e.submit (.destroyTexture id)).1 :=
        .submit (by simp [Request.OfFrame]) rfl
      exact hone.trans ((ih _).of_same rfl rfl)

/-- Creating textures is outside of frames. -/
theorem createTextures_outside (e : Executor (Scribe β)) (done : List String)
    (ts : List (String × TextureSpec)) :
    Outside e (e.createTextures done ts).1 := by
  have hone : ∀ (e : Executor (Scribe β)) (t : String × TextureSpec),
      Outside e (e.createTexture t).1 := by
    intro e t
    have hsub : Outside e (e.submit (.createTexture t.1 (t.2.sized e.width e.height))).1 :=
      .submit (by simp [Request.OfFrame]) rfl
    unfold createTexture
    split <;> next h => rw [h] at hsub; exact hsub.trans (.nil rfl rfl)
  fun_induction createTextures e done ts with
  | case1 e done => exact .nil rfl rfl
  | case2 e done t ts e₁ h ih =>
      have hfirst := hone e t
      rw [h] at hfirst
      exact hfirst.trans ih
  | case3 e done t ts e₁ err h =>
      have hfirst := hone e t
      rw [h] at hfirst
      exact hfirst.trans (discard_outside e₁ done)

/-- A load makes no request of a frame. -/
theorem load_outside (e : Executor (Scribe β)) (g : Graph) (alloc : Option Graph.Allocation) :
    Outside e (e.load g alloc).1 := by
  cases hload : e.load g alloc with
  | mk e' r =>
      have hcompile := compilePrograms_outside e g
      cases r with
      | none =>
          obtain ⟨e₁, e₂, passes, -, h₁, -, h₂, rfl⟩ := load_none hload
          have hcreate := createTextures_outside e₁ [] (e₁.loadTextures g alloc)
          rw [h₁] at hcompile
          rw [show e₁.createTextures [] (e₁.loadTextures g alloc) = (e₂, none) from h₂] at hcreate
          exact (hcompile.trans hcreate).trans ((discard_outside _ _).of_same rfl rfl)
      | some err =>
          rcases load_some hload with ⟨-, rfl⟩ | ⟨-, ⟨r, h₁⟩ | ⟨e₁, h₁, h₂⟩⟩
          · exact .nil rfl rfl
          · rwa [h₁] at hcompile
          · have hcreate := createTextures_outside e₁ [] (e₁.loadTextures g alloc)
            rw [h₁] at hcompile
            rw [h₂] at hcreate
            exact hcompile.trans hcreate

/-- Another size makes no request of a frame. -/
theorem resize_outside (e : Executor (Scribe β)) (width height : Int) :
    Outside e (e.resize width height).1 := by
  have hrecreate : ∀ (e : Executor (Scribe β)) (t : String × TextureSpec),
      Outside e (e.recreate t).1 := by
    intro e t
    have hgone : Outside e (e.submit (.destroyTexture t.1)).1 :=
      .submit (by simp [Request.OfFrame]) rfl
    unfold recreate
    split
    · next h => rw [h] at hgone; exact hgone
    · next e₁ h =>
        rw [h] at hgone
        exact hgone.trans (.submit (c := .createTexture t.1 (t.2.sized e₁.width e₁.height))
          (by simp [Request.OfFrame]) rfl)
  have hsized : Outside e (e.submit (.resize width height)).1 :=
    .submit (by simp [Request.OfFrame]) rfl
  unfold resize
  split
  · exact .nil rfl rfl
  · split
    · next h => rw [h] at hsized; exact hsized
    · next e₁ h =>
        rw [h] at hsized
        exact runList_keeps (f := recreate) (Outside e) (fun e t he => he.trans (hrecreate e t)) _ _
          (hsized.trans (.nil rfl rfl))

/-- The end of a renderer makes no request of a frame. -/
theorem dispose_outside (e : Executor (Scribe β)) : Outside e e.dispose.1 := by
  unfold dispose
  split
  · exact .nil rfl rfl
  · have hclosed : ∀ e : Executor (Scribe β), Outside e (e.submit .close).1 :=
      fun e => .submit (by simp [Request.OfFrame]) rfl
    exact (discard_outside e _).trans ((hclosed _).of_same rfl rfl)

end Executor

end EffectChain
