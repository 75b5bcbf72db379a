import EffectChain.Proofs.Render.FrameProtocol

/-!
# EffectChain.Proofs.Render.Dispatches

What holds of every dispatch of a frame.

A frame hands its dispatches over one after another, and the last one may be refused.  When
the frame keeps an invariant from one dispatch to the next, and the invariant tells something
of the dispatch that is handed over next, it tells this of all of them.

* `Frame.dispatch_hands` — what a pass of the frame hands over;
* `Executor.frame_dispatches` — the dispatches of a whole frame, whether it succeeds or not.
-/

namespace EffectChain

/-- What is asked for at the end of a frame. -/
theorem Closing.request {copies : List Request} {xs : List Exchange} {r : Option RenderError}
    (h : Closing copies xs r) {x : Exchange} (hx : x ∈ xs) :
    x.1 = .endFrame ∨ x.1 ∈ copies ∨ ∃ t, x.1 = .present t := by
  cases h with
  | notEnded => exact .inl (by simp_all)
  | notCopied h => grind
  | notShown | shown | hidden => grind

namespace Frame

variable {β : Type}

/-- What a pass hands over in a frame. -/
structure Hands (f : Frame β) (p : Graph.Pass) (d : Dispatch) : Prop extends f.Binds p d where
  kind : d.kind = p.kind
  groups : p.kind = .compute → f.groups p = .ok d.groups

/-- The number of workgroups is that of the graph and the size of the frame. -/
theorem SameSetting.groups {f f' : Frame β} (h : f.SameSetting f') (p : Graph.Pass) :
    f'.groups p = f.groups p := by
  unfold Frame.groups Frame.outputSize
  rw [h.current, h.state]

open Executor (Logs)

variable [Backend β] {f f' : Frame (Scribe β)} {p : Graph.Pass} {u : Table Datum} {n : Int}
    {r : Option RenderError}

/-- A dispatch is one request at most, and one that succeeds is one. -/
theorem dispatch_hands (h : dispatch p u f n = (f', r)) :
    Logs f.exec [] f'.exec ∨ ∃ d a, f.Hands p d ∧
    Logs f.exec [(.executePass d f.state, a)] f'.exec := by
  have hbound := bindOutputs_logs p.id f {} p.outputs.entries
  have hsame := bindOutputs_same p.id f {} p.outputs.entries
  unfold dispatch at h
  cases hin : f.bindInputs p.id p.inputs with
  | error err =>
      rw [hin] at h
      obtain rfl := (Prod.mk.inj h).1
      exact .inl (.nil rfl rfl)
  | ok inputs =>
      rw [hin] at h
      cases hout : bindOutputs p.id f {} p.outputs.entries with
      | mk f₁ res =>
          rw [hout] at h hbound hsame
          cases res with
          | error err =>
              obtain rfl := (Prod.mk.inj h).1
              exact .inl hbound
          | ok outputs =>
              dsimp only at h
              split at h
              · obtain rfl := (Prod.mk.inj h).1
                exact .inl hbound
              · next groups hgroups =>
                  -- what is handed over, whatever the backend answers
                  have hhands : ∀ d : Dispatch, d.pass = p.id → d.kind = p.kind →
                      d.inputs = inputs →
                      d.outputs = outputs → d.groups = groups → f.Hands p d := by
                    rintro d hpass hkind rfl rfl rfl
                    refine ⟨⟨hpass, hin, f₁, hout⟩, hkind, fun hcompute => ?_⟩
                    rw [if_pos hcompute] at hgroups
                    rwa [hsame.groups] at hgroups
                  rw [← hsame.state]
                  split at h
                  · next exec a hsub =>
                      obtain rfl := (Prod.mk.inj h).1
                      have hlogs := hbound.concat hsub
                      exact .inr ⟨_, some a, hhands _ rfl rfl rfl rfl rfl, hlogs⟩
                  · next exec hsub =>
                      obtain rfl := (Prod.mk.inj h).1
                      have hlogs :=
                        (hbound.concat hsub).append (commit_logs { f₁ with exec } p.outputs)
                      refine .inr ⟨_, none, hhands _ ?_ ?_ ?_ ?_ ?_, hlogs⟩ <;> rfl

end Frame

namespace Executor

variable {β : Type} {Q : Dispatch → Prop} {e e' e'' : Executor (Scribe β)}

/-- The renderer has made requests, and something holds of the dispatches among them. -/
def Adds (Q : Dispatch → Prop) (e e' : Executor (Scribe β)) : Prop :=
  ∃ xs, e'.backend.log = e.backend.log ++ xs ∧ ∀ d state answer,
    (.executePass d state, answer) ∈ xs → Q d

namespace Adds

theorem refl (e : Executor (Scribe β)) : Adds Q e e := ⟨[], by simp, by simp⟩

theorem trans (h : Adds Q e e') (h' : Adds Q e' e'') : Adds Q e e'' := by
  obtain ⟨xs, hlog, hxs⟩ := h
  obtain ⟨ys, hlog', hys⟩ := h'
  refine ⟨xs ++ ys, by rw [hlog', hlog, List.append_assoc], fun d state answer hmem => ?_⟩
  exact (List.mem_append.1 hmem).elim (hxs d state answer) (hys d state answer)

/-- Requests that are no dispatches. -/
theorem of_log {xs : List Exchange} (hlog : e'.backend.log = e.backend.log ++ xs)
    (hxs : ∀ x ∈ xs, ∀ d state, x.1 ≠ .executePass d state) : Adds Q e e' :=
  ⟨xs, hlog, fun d state _ hmem => absurd rfl (hxs _ hmem d state)⟩

variable [Backend β]

theorem submit {c : Request} {a : Option Refusal} (h : e.submit c = (e', a))
    (hc : ∀ d state, c ≠ .executePass d state) :
    Adds Q e e' :=
  .of_log (Logs.submit h).log (by simpa using hc)

/-- The end of a frame dispatches nothing. -/
theorem finish (f : Frame (Scribe β)) : Adds Q f.exec f.finish.1 := by
  obtain ⟨xs, hclosing, hlog, -⟩ := Frame.finish_logs (f := f) rfl
  refine .of_log hlog fun x hx d state heq => ?_
  rcases hclosing.request hx with hend | hcopy | ⟨t, hpresent⟩
  · simp [hend] at heq
  · obtain ⟨b, -, hb⟩ := List.mem_map.1 hcopy
    rw [← hb] at heq
    exact Request.noConfusion heq
  · simp [hpresent] at heq

theorem abort (f : Frame (Scribe β)) (err : RenderError) : Adds Q f.exec (f.abort err).1 := by
  obtain ⟨a, -, -, hlogs⟩ := f.abort_logs err
  exact .of_log hlogs.log (by simp)

/-- A dispatch, whether it succeeds or not. -/
theorem dispatch {f f' : Frame (Scribe β)} {p : Graph.Pass} {u : Table Datum} {n : Int}
    {r : Option RenderError} (h : ∀ d, f.Hands p d → Q d) (hd : Frame.dispatch p u f n = (f', r)) :
    Adds Q f.exec f'.exec := by
  rcases Frame.dispatch_hands hd with hlogs | ⟨d, a, hhands, hlogs⟩
  · exact .of_log hlogs.log (by simp)
  · refine ⟨_, hlogs.log, fun d' state answer hmem => ?_⟩
    obtain ⟨⟨rfl, -⟩, -⟩ := by simpa using hmem
    exact h d' hhands

end Adds

variable [Backend β] {I : Frame (Scribe β) → Prop} {g : LoadedGraph} {s : FrameState}

/-- Dispatches that succeed one after another, through which the frame keeps an invariant. -/
theorem performs_adds (hstep : ∀ {f f' p u n}, I f → Frame.dispatch p u f n = (f', none) → I f')
    (hhands : ∀ {f p d}, I f → f.current = g → f.state = s → p ∈ g.graph.passes → f.Hands p d → Q d)
    {f f' : Frame (Scribe β)} {js : List Job} (h : Performs f js f') (hf : I f) (hg : f.current = g)
    (hs : f.state = s) (hjs : ∀ j ∈ js, j.pass ∈ g.graph.passes) :
    I f' ∧ Adds Q f.exec f'.exec := by
  induction h with
  | nil f => exact ⟨hf, .refl f.exec⟩
  | cons u n first _ ih =>
      have hsame := Frame.dispatch_same first
      obtain ⟨hj, hjs⟩ := List.forall_mem_cons.1 hjs
      obtain ⟨hlast, hrest⟩ :=
        ih (hstep hf first) (hsame.current.trans hg) (hsame.state.trans hs) hjs
      exact ⟨hlast, (Adds.dispatch (fun d => hhands hf hg hs hj) first).trans hrest⟩

/-- What an invariant of a frame tells of the next dispatch holds of all dispatches of the
frame, the one that it stops in included. -/
theorem frame_dispatches (hcurrent : e.current = some g) (hready : g.Ready) (state : FrameState)
    (hopened : ∀ {e₁}, e.submit (.beginFrame (e.frameState state)) = (e₁, none) →
      I (Frame.opened e₁ g (e.frameState state)))
    (hstep : ∀ {f f' p u n}, I f → Frame.dispatch p u f n = (f', none) → I f')
    (hhands : ∀ {f p d}, I f → f.current = g → f.state = e.frameState state → p ∈ g.graph.passes →
      f.Hands p d → Q d) :
    Adds Q e (e.frame state).1 := by
  cases hdisposed : e.disposed with
  | true => exact ⟨[], by simp [frame, hdisposed], by simp⟩
  | false =>
      cases hbegin : e.submit (.beginFrame (e.frameState state)) with
      | mk e₁ a =>
          have hbegun : Adds Q e e₁ := .submit hbegin fun _ _ => Request.noConfusion
          cases a with
          | some a =>
              rw [frame_notBegun hdisposed hcurrent hbegin]
              exact hbegun
          | none =>
              have hpasses : ∀ j ∈ g.jobs (e.frameState state).env, j.pass ∈ g.graph.passes :=
                fun j hj => List.mem_of_getElem? (hready.pass_of_mem_jobs hj)
              have houtcome := groups_outcome g (Frame.opened e₁ g (e.frameState state)) rfl
              rw [frame_eq hdisposed hcurrent hbegin]
              cases hrun :
                  runList Frame.group (Frame.opened e₁ g (e.frameState state))
                      (Frame.stepGroups g.passes) with
              | mk f r =>
                  rw [hrun] at houtcome
                  cases r with
                  | none =>
                      obtain ⟨-, hdrawn⟩ :=
                        performs_adds hstep hhands houtcome (hopened hbegin) rfl rfl hpasses
                      exact hbegun.trans (hdrawn.trans (.finish f))
                  | some err =>
                      obtain ⟨done, f₁, hdone, hperforms, hstop⟩ := houtcome
                      obtain ⟨hlast, hdrawn⟩ :=
                        performs_adds hstep hhands hperforms (hopened hbegin) rfl rfl
                        fun j hj => hpasses j (hdone.subset hj)
                      -- the dispatch that the frame stops in
                      have hstopped : Adds Q f₁.exec f.exec := by
                        rcases hstop.next hdone with rfl | ⟨j, u, n, err', hnext, hfails⟩
                        · exact .refl f.exec
                        · have hj : j.pass ∈ g.graph.passes := hpasses j (hnext.subset (by simp))
                          have hsame := hperforms.same
                          exact .dispatch (fun d => hhands hlast hsame.current hsame.state hj)
                            hfails
                      exact hbegun.trans (hdrawn.trans (hstopped.trans (.abort f err)))

end Executor

end EffectChain
