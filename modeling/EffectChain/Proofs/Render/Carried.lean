import EffectChain.Proofs.Render.Buffers

/-!
# EffectChain.Proofs.Render.Carried

What a frame carries over from the renderer before it to the renderer after it.

A frame calls the backend, changes what is noted about surfaces and counts.  A relation
between renderers that none of these breaks holds of a whole frame, whether it succeeds or
not (`Carried.frame`).
-/

namespace EffectChain

/-- The calls that are made in the course of a frame. -/
def Request.OfFrame : Request → Prop
  | .executePass .. | .beginFrame _ | .endFrame | .copyTexture .. | .present _ => True
  | _ => False

namespace Executor

/-- A relation between renderers that no part of a frame breaks. -/
structure Carried {β : Type} [Backend β] (R : Executor β → Executor β → Prop) : Prop where
  refl : ∀ e, R e e
  trans : ∀ {e e' e''}, R e e' → R e' e'' → R e e''
  submit : ∀ (e : Executor β) (c : Request), c.OfFrame → R e (e.submit c).1
  /-- Surfaces may be told anew, but none gets lost. -/
  surfaces : ∀ (e : Executor β) (s : Table BufferPair),
    (∀ id, e.surfaces.contains id = true → s.contains id = true) → R e { e with surfaces := s }
  frames : ∀ (e : Executor β) (n : Nat), R e { e with frames := n }

namespace Carried

variable {β : Type} [Backend β] {R : Executor β → Executor β → Prop}

theorem call (h : Carried R) {e e' : Executor β} {c : Request} {r : Option Refusal}
    (hsub : e.submit c = (e', r)) (hc : c.OfFrame) : R e e' := by
  obtain rfl : (e.submit c).1 = e' := congrArg Prod.fst hsub
  exact h.submit e c hc

theorem insert (h : Carried R) (e : Executor β) (id : String) (b : BufferPair) :
    R e { e with surfaces := e.surfaces.insert id b } :=
  h.surfaces e _ fun a ha => by simp [ha]

theorem map (h : Carried R) (e : Executor β) (f : String → BufferPair → BufferPair) :
    R e { e with surfaces := e.surfaces.map f } :=
  h.surfaces e _ fun a ha => by simp [ha]

/-- Binding an output to be written is carried. -/
theorem bindWrite (h : Carried R) (f : Frame β) (pass id : String) :
    R f.exec (f.bindWrite pass id).1.exec := by
  cases hs : f.exec.surfaces.get? id with
  | none =>
      rw [Frame.bindWrite_stored hs]
      exact h.refl f.exec
  | some b =>
      rw [Frame.bindWrite_surface hs]
      exact h.insert f.exec id _

/-- Binding all outputs is carried. -/
theorem bindOutputs (h : Carried R) (pass : String) (f : Frame β) (bound : Table String)
    (outs : List (String × String)) : R f.exec (Frame.bindOutputs pass f bound outs).1.exec := by
  fun_induction Frame.bindOutputs pass f bound outs with
  | case1 f bound => exact h.refl f.exec
  | case2 f bound name id rest f' e hw =>
      have hone := h.bindWrite f pass id
      rwa [hw] at hone
  | case3 f bound name id rest f' t hw ih =>
      have hone := h.bindWrite f pass id
      rw [hw] at hone
      exact h.trans hone ih

/-- Committing outputs is carried. -/
theorem commit (h : Carried R) (f : Frame β) (outputs : Table String) :
    R f.exec (f.commit outputs).exec := by
  unfold Frame.commit
  induction outputs.values generalizing f with
  | nil => exact h.refl f.exec
  | cons id ids ih =>
      have hone : R f.exec (f.commitOne id).exec := by
        unfold Frame.commitOne
        split
        · exact h.refl f.exec
        · split
          · exact h.insert f.exec id _
          · exact h.refl f.exec
      exact h.trans hone (ih (f.commitOne id))

/-- A dispatch is carried. -/
theorem dispatch (h : Carried R) (p : Graph.Pass) (u : Table Datum) (f : Frame β) (n : Int) :
    R f.exec (Frame.dispatch p u f n).1.exec := by
  have hbound := h.bindOutputs p.id f {} p.outputs.entries
  unfold Frame.dispatch
  split
  · exact h.refl f.exec
  · split
    · next f₁ e hout => rwa [hout] at hbound
    · next f₁ outputs hout =>
        rw [hout] at hbound
        split
        · exact hbound
        · dsimp only
          split
          · next exec r hsub => exact h.trans hbound (h.call hsub trivial)
          · next exec hsub =>
              exact h.trans (h.trans hbound (h.call hsub trivial))
                (h.commit { f₁ with exec } p.outputs)

/-- What every step of a frame carries over, a list of steps carries over. -/
theorem list (h : Carried R) {α : Type} {step : Frame β → α → Frame β × Option RenderError}
    (hstep : ∀ f a, R f.exec (step f a).1.exec) (as : List α) (f : Frame β) :
    R f.exec (runList step f as).1.exec :=
  runList_keeps (fun f' => R f.exec f'.exec) (fun f' a hf' => h.trans hf' (hstep f' a)) as f
    (h.refl f.exec)

/-- A pass is carried. -/
theorem pass (h : Carried R) (round : Int) (f : Frame β) (p : LoadedPass) :
    R f.exec (Frame.pass round f p).1.exec := by
  unfold Frame.pass
  dsimp only
  split
  · exact h.refl f.exec
  · split
    · exact h.refl f.exec
    · exact h.list (h.dispatch p.pass _) _ f

/-- A group of passes is carried. -/
theorem group (h : Carried R) (f : Frame β) (ps : List LoadedPass) :
    R f.exec (f.group ps).1.exec := by
  unfold Frame.group
  cases ps with
  | nil => exact h.refl f.exec
  | cons p ps =>
      dsimp only
      split
      · exact h.list (fun f round => h.list (h.pass round) (p :: ps) f) _ f
      · exact h.refl f.exec

/-- Aborting a frame is carried. -/
theorem abort (h : Carried R) (f : Frame β) (err : RenderError) : R f.exec (f.abort err).1 := by
  have hclean := h.map f.exec fun _ b => { b with dirty := false }
  unfold Frame.abort
  dsimp only
  split <;> next hsub => exact h.trans hclean (h.call hsub trivial)

/-- Settling a pair is carried. -/
theorem settle (h : Carried R) (e : Executor β) (b : BufferPair) : R e (Frame.settle e b).1 := by
  unfold Frame.settle
  split
  · next hsub => exact h.call hsub trivial
  · next e₁ hsub => exact h.trans (h.call hsub trivial) (h.insert e₁ b.id _)

/-- Presenting the frame is carried. -/
theorem present (h : Carried R) (f : Frame β) {e e' : Executor β} {r : Option Refusal}
    (hp : (match f.shown? with
      | some t => e.submit (.present t)
      | none => (e, none)) = (e', r)) : R e e' := by
  split at hp
  · exact h.call hp trivial
  · obtain rfl := (Prod.mk.inj hp).1
    exact h.refl e

/-- Finishing a frame is carried. -/
theorem finish (h : Carried R) (f : Frame β) : R f.exec f.finish.1 := by
  unfold Frame.finish
  split
  · next hsub => exact h.call hsub trivial
  · next e₁ hsub =>
      have hend : R f.exec e₁ := h.call hsub trivial
      have hsettled := runList_keeps (f := Frame.settle) (R e₁)
        (fun e b he => h.trans he (h.settle e b)) (e₁.surfaces.values.filter (·.dirty)) e₁
          (h.refl e₁)
      split
      · next e₂ err hr =>
          rw [hr] at hsettled
          exact h.trans hend hsettled
      · next e₂ hr =>
          rw [hr] at hsettled
          dsimp only
          split
          · next e₃ r hpresent => exact h.trans (h.trans hend hsettled) (h.present f hpresent)
          · next e₃ hpresent =>
              have hswap := h.map e₃ fun id b => if f.written.contains id then b.swap else b
              have hshown := h.trans (h.trans hend hsettled) (h.present f hpresent)
              exact h.trans (h.trans hshown hswap) (h.frames _ (e₃.frames + 1))

/-- A frame carries over what none of its parts breaks. -/
theorem frame (h : Carried R) (e : Executor β) (state : FrameState) : R e (e.frame state).1 := by
  unfold Executor.frame
  split
  · exact h.refl e
  · split
    · exact h.refl e
    · next g hcurrent =>
        dsimp only
        split
        · next hsub => exact h.call hsub trivial
        · next e₁ hsub =>
            have hbegin : R e e₁ := h.call hsub trivial
            have hgroups : ∀ {f₀ f : Frame β} {r : Option RenderError},
                runList Frame.group f₀ (Frame.stepGroups g.passes) = (f, r) → R f₀.exec f.exec := by
              intro f₀ f r hr
              have hall := h.list h.group (Frame.stepGroups g.passes) f₀
              rwa [hr] at hall
            split
            · next f err hr => exact h.trans (h.trans hbegin (hgroups hr)) (h.abort f err)
            · next f hr => exact h.trans (h.trans hbegin (hgroups hr)) (h.finish f)

end Carried

end Executor

end EffectChain
