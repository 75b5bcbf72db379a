import EffectChain.Proofs.Render.Reworked
import EffectChain.Proofs.Render.Transcript

/-!
# EffectChain.Proofs.Render.FrameProtocol

The order in which a frame talks to its backend.

A frame is begun, its passes are run, it is ended, feedbacks are moved and the result is
shown.  It stops at the first refusal, but a frame that was begun is always ended, once.
Conditions and bindings can fail between two requests; they leave no trace in the
transcript but that the frame ends early.

* `FrameCalls` — the transcripts of a frame with a given schedule;
* `Frame.finish_logs`, `Performs.logs` — what the parts of a frame say;
* `frame_protocol` — every frame of a loaded renderer has such a transcript, it is counted
  if and only if it succeeds, and in a run the begun frames are ended one after another.
-/

namespace EffectChain

/-! ## transcripts of a frame -/

/-- The dispatch was handed to the backend and accepted. -/
def Job.Ran (state : FrameState) (j : Job) (x : Exchange) : Prop :=
  ∃ d : Dispatch, d.pass = j.pass.id ∧ x = (.executePass d state, none)

/-- The request that moves what was written to a feedback to where it is read. -/
def BufferPair.copy (b : BufferPair) : Request := .copyTexture b.write b.read

/-- The exchanges after all dispatches, with the result of the frame: it is ended, the
copies are made in order, and at most one texture is shown. -/
inductive Closing (copies : List Request) : List Exchange → Option RenderError → Prop
  | notEnded {r : Refusal} {err : RenderError} : Closing copies [(.endFrame, some r)] (some err)
  | notCopied {done rest : List Request} {c : Request} {r : Refusal} {err : RenderError}
      (h : copies = done ++ c :: rest) :
      Closing copies ((.endFrame, none) :: (done.map (·, none) ++ [(c, some r)])) (some err)
  | notShown {t : String} {r : Refusal} {err : RenderError} :
      Closing copies ((.endFrame, none) :: (copies.map (·, none) ++ [(Request.present t, some r)]))
        (some err)
  | shown {t : String} : Closing copies
      ((.endFrame, none) :: (copies.map (·, none) ++ [(Request.present t, none)])) none
  /-- There is nothing to show. -/
  | hidden : Closing copies ((.endFrame, none) :: copies.map (·, none)) none

/-- The exchanges of a frame, with its result. -/
inductive FrameCalls (state : FrameState) (jobs : List Job) (copies : List Request) :
    List Exchange → Option RenderError → Prop
  | notBegun {r : Refusal} {err : RenderError} : FrameCalls state jobs copies
      [(.beginFrame state, some r)] (some err)
  /-- A dispatch is refused, or something fails between two requests.  The frame is ended, whether
  or not the backend agrees. -/
  | aborted {done : List Job} {passes last : List Exchange} {a : Option Refusal} {err : RenderError}
      (hdone : done <+: jobs) (hpasses : List.Forall₂ (Job.Ran state) done passes)
      (hlast : last = [] ∨ ∃ (j : Job) (d : Dispatch) (r : Refusal),
        done ++ [j] <+: jobs ∧ d.pass = j.pass.id ∧ last = [(.executePass d state, some r)]) :
      FrameCalls state jobs copies
        ((.beginFrame state, none) :: (passes ++ last ++ [(Request.endFrame, a)])) (some err)
  | drawn {passes closing : List Exchange} {r : Option RenderError}
      (hpasses : List.Forall₂ (Job.Ran state) jobs passes) (hclosing : Closing copies closing r) :
      FrameCalls state jobs copies ((.beginFrame state, none) :: (passes ++ closing)) r

/-- What opens a frame and what ends it. -/
inductive FrameMark where
  | begun
  | ended
  deriving DecidableEq, Repr

/-- A frame is begun when the backend accepts it, and it is ended in any case. -/
def Exchange.mark? : Exchange → Option FrameMark
  | (.beginFrame _, none) => some .begun
  | (.endFrame, _) => some .ended
  | _ => none

@[simp] theorem Exchange.mark?_begun (state : FrameState) :
    mark? (.beginFrame state, none) = some .begun := rfl

@[simp] theorem Exchange.mark?_endFrame (a : Option Refusal) : mark? (.endFrame, a) = some .ended :=
  rfl

/-- What is requested outside of frames marks no frame. -/
theorem marks_outside {xs : List Exchange} (h : ∀ x ∈ xs, ¬ x.1.OfFrame) :
    xs.filterMap Exchange.mark? = [] := by
  refine List.filterMap_eq_nil_iff.2 fun x hx => ?_
  have hx := h x hx
  unfold Exchange.mark?
  split <;> simp_all [Request.OfFrame]

/-- The jobs of a frame mark neither a begin nor an end. -/
theorem marks_ran {state : FrameState} {js : List Job} {xs : List Exchange}
    (h : List.Forall₂ (Job.Ran state) js xs) : xs.filterMap Exchange.mark? = [] := by
  induction h with
  | nil => rfl
  | cons hone _ ih =>
      obtain ⟨d, -, rfl⟩ := hone
      simpa [Exchange.mark?] using ih

section frameCalls

variable {state : FrameState} {jobs : List Job} {copies : List Request} {xs : List Exchange}
  {r : Option RenderError}

/-- The closing of a frame marks its end. -/
theorem Closing.marks (hcopies : ∀ c ∈ copies, ∃ b : BufferPair, c = b.copy)
    (h : Closing copies xs r) :
    xs.filterMap Exchange.mark? = [.ended] := by
  have hcopied : ∀ {cs : List Request}, (∀ c ∈ cs, c ∈ copies) →
      (cs.map fun c => ((c, none) : Exchange)).filterMap Exchange.mark? = [] := by
    intro cs hcs
    refine List.filterMap_eq_nil_iff.2 fun x hx => ?_
    obtain ⟨c, hc, rfl⟩ := List.mem_map.1 hx
    obtain ⟨b, rfl⟩ := hcopies c (hcs c hc)
    rfl
  cases h with
  | notEnded => rfl
  | @notCopied done rest c r err h =>
      obtain ⟨b, rfl⟩ := hcopies c (by simp [h])
      rw [List.filterMap_cons_some (Exchange.mark?_endFrame _), List.filterMap_append,
        hcopied fun c hc => by simp [h, hc]]
      rfl
  | notShown =>
      rw [List.filterMap_cons_some (Exchange.mark?_endFrame _), List.filterMap_append,
        hcopied fun _ h => h]
      rfl
  | shown =>
      rw [List.filterMap_cons_some (Exchange.mark?_endFrame _), List.filterMap_append,
        hcopied fun _ h => h]
      rfl
  | hidden => rw [List.filterMap_cons_some (Exchange.mark?_endFrame _), hcopied fun _ h => h]

/-- A frame that is begun is ended. -/
theorem FrameCalls.marks (hcopies : ∀ c ∈ copies, ∃ b : BufferPair, c = b.copy)
    (h : FrameCalls state jobs copies xs r) :
    xs.filterMap Exchange.mark? = [] ∨ xs.filterMap Exchange.mark? = [.begun, .ended] := by
  cases h with
  | notBegun => exact .inl rfl
  | @aborted done passes last a err hdone hpasses hlast =>
      have hrefused : last.filterMap Exchange.mark? = [] := by
        rcases hlast with rfl | ⟨j, d, r, -, -, rfl⟩ <;> rfl
      refine .inr ?_
      rw [List.filterMap_cons_some (Exchange.mark?_begun state), List.filterMap_append,
        List.filterMap_append, marks_ran hpasses, hrefused]
      rfl
  | drawn hpasses hclosing =>
      refine .inr ?_
      rw [List.filterMap_cons_some (Exchange.mark?_begun state), List.filterMap_append,
        marks_ran hpasses, hclosing.marks hcopies]
      rfl

end frameCalls

/-! ## what the parts of a frame say -/

namespace Frame

variable {β : Type} {f f' : Frame (Scribe β)} {e e' : Executor (Scribe β)}

open Executor (Logs)

/-- Binding outputs changes surfaces alone. -/
theorem bindOutputs_logs (pass : String) (f : Frame (Scribe β)) (bound : Table String)
    (outs : List (String × String)) :
    Logs f.exec [] (bindOutputs pass f bound outs).1.exec := by
  obtain ⟨s, hframe, -, -⟩ := bindOutputs_turns pass outs f bound
  rw [hframe]
  exact .nil rfl rfl

/-- Committing outputs requests nothing. -/
theorem commit_logs (f : Frame (Scribe β)) (outputs : Table String) :
    Logs f.exec [] (f.commit outputs).exec := by
  unfold commit
  induction outputs.values generalizing f with
  | nil => exact .nil rfl rfl
  | cons id ids ih =>
      have hone : Logs f.exec [] (f.commitOne id).exec := by
        unfold commitOne
        split
        · exact .nil rfl rfl
        · split <;> exact .nil rfl rfl
      exact hone.append (ih (f.commitOne id))

/-- The dispatch hands over the stored textures that the inputs and outputs of a pass are bound
to. -/
structure Binds (f : Frame β) (p : Graph.Pass) (d : Dispatch) : Prop where
  pass : d.pass = p.id
  inputs : f.bindInputs p.id p.inputs = .ok d.inputs
  outputs : ∃ f₁, bindOutputs p.id f {} p.outputs.entries = (f₁, .ok d.outputs)

variable [Backend β]

/-- A dispatch that succeeds is one request. -/
theorem dispatch_logs {p : Graph.Pass} {u : Table Datum} {n : Int}
    (h : dispatch p u f n = (f', none)) :
    ∃ d, f.Binds p d ∧ Logs f.exec [(.executePass d f.state, none)] f'.exec := by
  obtain ⟨inputs, f₁, outputs, d, exec, hin, hout, hd, rfl, rfl, hsub, rfl⟩ := dispatch_none h
  have hbound := bindOutputs_logs p.id f {} p.outputs.entries
  have hstate := (bindOutputs_same p.id f {} p.outputs.entries).state
  rw [hout] at hbound hstate
  rw [← hstate]
  exact ⟨d, ⟨hd, hin, f₁, hout⟩,
    (hbound.concat hsub).append (commit_logs { f₁ with exec } p.outputs)⟩

/-- A dispatch that fails makes its request in vain, or makes none. -/
theorem dispatch_fails_logs {p : Graph.Pass} {u : Table Datum} {n : Int} {err : RenderError}
    (h : dispatch p u f n = (f', some err)) :
    Logs f.exec [] f'.exec ∨
      ∃ d r, f.Binds p d ∧ Logs f.exec [(.executePass d f.state, some r)] f'.exec := by
  have hbound := bindOutputs_logs p.id f {} p.outputs.entries
  have hstate := (bindOutputs_same p.id f {} p.outputs.entries).state
  unfold dispatch at h
  split at h
  · obtain rfl := (Prod.mk.inj h).1
    exact .inl (.nil rfl rfl)
  · next inputs hin =>
    split at h
    · next f₁ _ hout =>
        obtain rfl := (Prod.mk.inj h).1
        rw [hout] at hbound
        exact .inl hbound
    · next f₁ outputs hout =>
        rw [hout] at hbound hstate
        split at h
        · obtain rfl := (Prod.mk.inj h).1
          exact .inl hbound
        · dsimp only at h
          split at h
          · next exec r hsub =>
              obtain rfl := (Prod.mk.inj h).1
              rw [← hstate]
              exact .inr ⟨_, r, ⟨rfl, hin, f₁, hout⟩, hbound.concat hsub⟩
          · simp at h

/-- A frame that is ended early asks for nothing else. -/
theorem abort_logs (f : Frame (Scribe β)) (err : RenderError) :
    ∃ a err', (f.abort err).2 = some err' ∧ Logs f.exec [(.endFrame, a)] (f.abort err).1 := by
  have hclean : Logs f.exec []
      { f.exec with surfaces := f.exec.surfaces.map fun _ b => { b with dirty := false } } :=
        .nil rfl rfl
  unfold abort
  dsimp only
  split
  · next hsub => exact ⟨_, _, rfl, hclean.concat hsub⟩
  · next hsub => exact ⟨_, _, rfl, hclean.concat hsub⟩

/-- Settling a dirty pair requests its copy. -/
theorem settle_logs {b : BufferPair} (h : settle e b = (e', none)) :
    Logs e [(b.copy, none)] e' := by
  unfold settle at h
  split at h
  · simp at h
  · next e₁ hsub =>
      obtain rfl := (Prod.mk.inj h).1
      exact (Logs.submit hsub).append (.nil rfl rfl)

/-- Settling a pair that fails requests its copy, and is refused. -/
theorem settle_fails_logs {b : BufferPair} {err : RenderError} (h : settle e b = (e', some err)) :
    ∃ r, Logs e [(b.copy, some r)] e' := by
  unfold settle at h
  split at h
  · next e₁ r hsub =>
      obtain rfl := (Prod.mk.inj h).1
      exact ⟨r, .submit hsub⟩
  · simp at h

/-- Settling several pairs requests their copies in order. -/
theorem settles_logs {bs : List BufferPair} (h : runList settle e bs = (e', none)) :
    Logs e ((bs.map BufferPair.copy).map (·, none)) e' := by
  induction bs generalizing e with
  | nil =>
      obtain rfl := (Prod.mk.inj h).1
      exact .nil rfl rfl
  | cons b bs ih =>
      rw [runList] at h
      cases hone : settle e b with
      | mk e₁ r =>
          rw [hone] at h
          cases r with
          | some err => simp at h
          | none => exact (settle_logs hone).append (ih h)

/-- The end of a frame after all its dispatches. -/
theorem finish_logs {r : Option RenderError} (h : f.finish = (e', r)) :
    ∃ xs, Closing (f.pending.map BufferPair.copy) xs r ∧ e'.backend.log = f.exec.backend.log ++ xs ∧
      e'.frames = if r.isNone then f.exec.frames + 1 else f.exec.frames := by
  unfold finish at h
  cases hend : f.exec.submit .endFrame with
  | mk e₁ a =>
      have hended := Logs.submit hend
      rw [hend] at h
      cases a with
      | some a =>
          obtain ⟨rfl, rfl⟩ := Prod.mk.inj h
          exact ⟨_, .notEnded, hended.log, hended.frames⟩
      | none =>
          have hpending : e₁.surfaces.values.filter (·.dirty) = f.pending := by
            rw [Executor.surfaces_submit hend, pending]
          dsimp only at h
          rw [hpending] at h
          cases hrun : runList settle e₁ f.pending with
          | mk e₂ a =>
              rw [hrun] at h
              cases a with
              | some err =>
                  obtain ⟨rfl, rfl⟩ := Prod.mk.inj h
                  obtain ⟨done, b, rest, e₃, hsplit, hdone, hb⟩ := runList_some hrun
                  obtain ⟨a, hrefused⟩ := settle_fails_logs hb
                  have hlogs := hended.append ((settles_logs hdone).append hrefused)
                  exact ⟨_, .notCopied (by rw [hsplit, List.map_append, List.map_cons]), hlogs.log,
                    hlogs.frames⟩
              | none =>
                  have hsettled := hended.append (settles_logs hrun)
                  dsimp only at h
                  cases hshown : f.shown? with
                  | none =>
                      rw [hshown] at h
                      obtain ⟨rfl, rfl⟩ := Prod.mk.inj h
                      exact ⟨_, .hidden, hsettled.log, congrArg (· + 1) hsettled.frames⟩
                  | some t =>
                      rw [hshown] at h
                      dsimp only at h
                      cases hsub : e₂.submit (.present t) with
                      | mk e₃ a =>
                          have hpresented := hsettled.concat hsub
                          rw [hsub] at h
                          cases a with
                          | some a =>
                              obtain ⟨rfl, rfl⟩ := Prod.mk.inj h
                              exact ⟨_, .notShown, hpresented.log, hpresented.frames⟩
                          | none =>
                              obtain ⟨rfl, rfl⟩ := Prod.mk.inj h
                              exact ⟨_, .shown, hpresented.log, congrArg (· + 1) hpresented.frames⟩

end Frame

open Executor (Logs) in
/-- Dispatches that succeed one after another are handed over in their order. -/
theorem Performs.logs {β : Type} [Backend β] {f f' : Frame (Scribe β)} {js : List Job}
    (h : Performs f js f') :
    ∃ xs, Logs f.exec xs f'.exec ∧ List.Forall₂ (Job.Ran f.state) js xs := by
  induction h with
  | nil f => exact ⟨[], .nil rfl rfl, .nil⟩
  | cons u n first _ ih =>
      obtain ⟨d, hd, hfirst⟩ := Frame.dispatch_logs first
      obtain ⟨xs, hrest, hran⟩ := ih
      rw [(Frame.dispatch_same first).state] at hran
      exact ⟨_, hfirst.append hrest, .cons ⟨d, hd.pass, rfl⟩ hran⟩

/-! ## the feedbacks that are moved -/

/-- Only feedbacks are marked. -/
def Marked (s : Table BufferPair) : Prop :=
  ∀ id b, s.get? id = some b → b.dirty = true → b.isFeedback = true

namespace Marked

variable {s : Table BufferPair}

/-- A pair that is dirty only as a feedback surface may be recorded. -/
theorem insert (h : Marked s) {id : String} {b : BufferPair}
    (hb : b.dirty = true → b.isFeedback = true) :
    Marked (s.insert id b) := by
  intro a c hc
  rw [Table.get?_insert] at hc
  split at hc
  · obtain rfl := Option.some.inj hc
    exact hb
  · exact h a c hc

/-- A frame marks feedbacks alone. -/
theorem reworked {s' : Table BufferPair} (h : Marked s) (hrework : Reworked s s') : Marked s' := by
  obtain ⟨k, hget, hk⟩ := hrework
  intro id c hc hdirty
  rw [hget, Option.map_eq_some_iff] at hc
  obtain ⟨b, hb, rfl⟩ := hc
  rw [BufferPair.isFeedback, (hk id b).id]
  exact ((hk id b).marked hdirty).elim (h id b hb) fun hfb => hfb

/-- New surfaces are not marked. -/
theorem insertAll (h : Marked s) {bs : List BufferPair} (hbs : ∀ b ∈ bs, b.dirty = false) :
    Marked (bs.foldl (fun t b => t.insert b.id b) s) := by
  induction bs generalizing s with
  | nil => exact h
  | cons b bs ih =>
      obtain ⟨hb, hbs⟩ := List.forall_mem_cons.1 hbs
      exact ih (h.insert fun hdirty => absurd hdirty (by simp [hb])) hbs

end Marked

namespace Executor

variable {β : Type} {e e' : Executor β}

/-- The feedbacks that are moved at the end of a frame: those that its dispatches write,
and those that an earlier frame wrote and did not move. -/
def moved (e : Executor β) (js : List Job) : List BufferPair :=
  e.surfaces.values.filter fun b => b.isFeedback && (b.dirty || decide (b.id ∈ (writes js).flatten))

/-- They stand in the order of their names. -/
theorem moved_pairwise (h : Tidy e.surfaces) (js : List Job) :
    (e.moved js).Pairwise fun a b => a.id < b.id := by
  refine List.Pairwise.filter _
    (List.pairwise_map.2 (e.surfaces.sorted.imp_of_mem fun {a b} ha hb hlt => ?_))
  have hnamed : ∀ x ∈ e.surfaces.entries, x.2.id = x.1 :=
    fun x hx => (h x.1 x.2 (Table.mem_entries_iff.1 hx)).2.1
  rwa [hnamed a ha, hnamed b hb]

/-- What waits after the dispatches of a frame is copied within the buffers from before. -/
theorem copies_pending (htidy : Tidy e.surfaces) (hmarked : Marked e.surfaces) {js : List Job}
    {f : Frame β} (hdrawn : Drawn e.surfaces (writes js) f) :
    f.pending.map BufferPair.copy = (e.moved js).map BufferPair.copy := by
  have hsurfaces : f.exec.surfaces = e.surfaces.map (BufferPair.after (writes js)) :=
    Table.ext_get? fun id => by rw [hdrawn.surfaces, Table.get?_map]
  have hpending : f.pending = ((e.surfaces.entries.map fun x => x.2.after (writes js) x.1)).filter
      (·.dirty) := by
    rw [Frame.pending, hsurfaces, Table.values, Table.map, List.map_map]
    rfl
  rw [hpending, moved, Table.values, List.filter_map, List.filter_map, List.map_map, List.map_map]
  have hentry : ∀ x ∈ e.surfaces.entries, x.2.id = x.1 ∧
      (x.2.dirty = true → x.2.isFeedback = true) := by
    intro x hx
    have hget := Table.mem_entries_iff.1 hx
    exact ⟨(htidy x.1 x.2 hget).2.1, hmarked x.1 x.2 hget⟩
  have hsame : ∀ x ∈ e.surfaces.entries, (x.2.after (writes js) x.1).dirty =
      (x.2.isFeedback && (x.2.dirty || decide (x.2.id ∈ (writes js).flatten))) := by
    intro x hx
    obtain ⟨hid, hdirty⟩ := hentry x hx
    rw [hid, BufferPair.after]
    cases hd : x.2.dirty with
    | true => simp [hdirty hd]
    | false => simp
  rw [List.filter_congr
    (q := fun x => x.2.isFeedback && (x.2.dirty || decide (x.2.id ∈ (writes js).flatten))) hsame]
  refine List.map_congr_left fun x hx => ?_
  have hfb : x.2.isFeedback = true := by
    have hkept := (List.mem_filter.1 hx).2
    simp only [Bool.and_eq_true] at hkept
    exact hkept.1
  simp [BufferPair.copy, BufferPair.after, BufferPair.turned, hfb]

variable [Backend β]

/-- A load marks nothing. -/
theorem load_marked (h : Marked e.surfaces) (g : Graph) (alloc : Option Graph.Allocation) :
    Marked (e.load g alloc).1.surfaces := by
  cases hload : e.load g alloc with
  | mk e' r =>
      cases r with
      | some err =>
          rw [(load_refused_scene hload).1]
          exact h
      | none =>
          rw [load_surfaces hload]
          refine h.insertAll fun b hb => ?_
          obtain ⟨id, -, rfl⟩ := List.mem_map.1 hb
          rfl

end Executor

/-! ## a frame -/

section frame

variable {β : Type} [Backend β] {e e' : Executor (Scribe β)} {g : LoadedGraph} {state : FrameState}
  {r : Option RenderError}

/-- A frame that stops before its end is ended early. -/
theorem aborted_logs {f f' : Frame (Scribe β)} {js : List Job} {err stop : RenderError}
    {copies : List Request} (hbegun : e.Logs [(.beginFrame f.state, none)] f.exec)
    (houtcome : Outcome js f (f', some stop)) (hclose : f'.abort err = (e', r)) :
    ∃ xs, FrameCalls f.state js copies xs r ∧ e'.backend.log = e.backend.log ++ xs ∧
      e'.frames = if r.isNone then e.frames + 1 else e.frames := by
  obtain ⟨done, f₁, hdone, hperforms, hstop⟩ := houtcome
  obtain ⟨passes, hlogs, hran⟩ := hperforms.logs
  obtain ⟨a, err₂, herr, hended⟩ := f'.abort_logs err
  rw [hclose] at herr hended
  obtain rfl : r = some err₂ := herr
  have hlast : ∃ last, f₁.exec.Logs last f'.exec ∧
      (last = [] ∨ ∃ (j : Job) (d : Dispatch) (a : Refusal),
      done ++ [j] <+: js ∧ d.pass = j.pass.id ∧ last = [(.executePass d f.state, some a)]) := by
    rcases hstop.next hdone with rfl | ⟨j, u, n, err', hnext, hfails⟩
    · exact ⟨[], .nil rfl rfl, .inl rfl⟩
    · rcases Frame.dispatch_fails_logs hfails with hnone | ⟨d, a, hd, hrefused⟩
      · exact ⟨[], hnone, .inl rfl⟩
      · rw [hperforms.same.state] at hrefused
        exact ⟨_, hrefused, .inr ⟨j, d, a, hnext, hd.pass, rfl⟩⟩
  obtain ⟨last, hrefused, hlast⟩ := hlast
  have hall := hbegun.append (((hlogs.append hrefused)).append hended)
  exact ⟨_, .aborted hdone hran hlast, hall.log, hall.frames⟩

/-- A frame that makes all its dispatches goes on to its end. -/
theorem drawn_logs {f f' : Frame (Scribe β)} {js : List Job} (htidy : Tidy e.surfaces)
    (hmarked : Marked e.surfaces) (hbegun : e.Logs [(.beginFrame f.state, none)] f.exec)
    (hopened : Drawn e.surfaces [] f) (hperforms : Performs f js f')
    (hclose : f'.finish = (e', r)) :
    ∃ xs, FrameCalls f.state js ((e.moved js).map BufferPair.copy) xs r ∧
      e'.backend.log = e.backend.log ++ xs ∧ e'.frames = if r.isNone then e.frames +
        1 else e.frames := by
  have hdrawn : Drawn e.surfaces (writes js) f' := hopened.performs hperforms
  obtain ⟨passes, hlogs, hran⟩ := hperforms.logs
  obtain ⟨closing, hclosing, hlog, hframes⟩ := Frame.finish_logs hclose
  rw [e.copies_pending htidy hmarked hdrawn] at hclosing
  have hall := hbegun.append hlogs
  refine ⟨_, .drawn hran hclosing, ?_, ?_⟩
  · rw [hlog, hall.log, List.append_assoc, List.append_assoc]
    rfl
  · rw [hframes, hall.frames]

/-- A frame of a loaded renderer keeps to the protocol. -/
theorem frame_logs (htidy : Tidy e.surfaces) (hmarked : Marked e.surfaces)
    (hdisposed : e.disposed = false) (hcurrent : e.current = some g) (h : e.frame state = (e', r)) :
    ∃ xs, FrameCalls (e.frameState state) (g.jobs (e.frameState state).env)
        ((e.moved (g.jobs (e.frameState state).env)).map BufferPair.copy) xs r ∧
      e'.backend.log = e.backend.log ++ xs ∧ e'.frames = if r.isNone then e.frames +
        1 else e.frames := by
  cases hbegin : e.submit (.beginFrame (e.frameState state)) with
  | mk e₁ a =>
      have hbegun := Executor.Logs.submit hbegin
      cases a with
      | some a =>
          rw [Executor.frame_notBegun hdisposed hcurrent hbegin] at h
          obtain ⟨rfl, rfl⟩ := Prod.mk.inj h
          exact ⟨_, .notBegun, hbegun.log, hbegun.frames⟩
      | none =>
          rw [Executor.frame_eq hdisposed hcurrent hbegin] at h
          have houtcome := groups_outcome g (Frame.opened e₁ g (e.frameState state)) rfl
          have hopened := Drawn.opened e₁ g (e.frameState state)
          rw [Executor.surfaces_submit hbegin] at hopened
          cases hrun :
              runList Frame.group (Frame.opened e₁ g (e.frameState state))
                  (Frame.stepGroups g.passes) with
          | mk f a =>
              rw [hrun] at houtcome h
              cases a with
              | some err => exact aborted_logs hbegun houtcome h
              | none => exact drawn_logs htidy hmarked hbegun hopened houtcome h

end frame

/-! ## runs -/

namespace Executor

variable {β : Type} [Backend β]

/-- The renderers that can be reached on a backend whose requests are written down from the
start, with the number of frames that succeeded.  What the backend behind refuses may
change between two calls. -/
inductive Logged : Executor (Scribe β) → Nat → Prop
  | start {b : β} {b' : Scribe β} {width height : Int} {e : Executor (Scribe β)}
      (h : Executor.start ({ inner := b } : Scribe β) width height = (b', .ok e)) : Logged e 0
  | backend {e : Executor (Scribe β)} {n : Nat} (h : Logged e n) (b : β) :
      Logged { e with backend := { e.backend with inner := b } } n
  | load {e : Executor (Scribe β)} {n : Nat} (h : Logged e n) (g : Graph)
      (alloc : Option Graph.Allocation) :
      Logged (e.load g alloc).1 n
  | frame {e : Executor (Scribe β)} {n : Nat} (h : Logged e n) (state : FrameState) :
      Logged (e.frame state).1 (if (e.frame state).2.isNone then n + 1 else n)
  | resize {e : Executor (Scribe β)} {n : Nat} (h : Logged e n) (width height : Int) :
      Logged (e.resize width height).1 n
  | dispose {e : Executor (Scribe β)} {n : Nat} (h : Logged e n) : Logged e.dispose.1 n

/-- The marks of a transcript: frames that were begun and ended, one after another. -/
def Alternating (log : List Exchange) : Prop :=
  ∃ k, log.filterMap Exchange.mark? = (List.replicate k [FrameMark.begun, .ended]).flatten

/-- Frames that begin and end in turn do so with one more. -/
theorem Alternating.append {log xs : List Exchange} (h : Alternating log)
    (hxs : xs.filterMap Exchange.mark? = [] ∨ xs.filterMap Exchange.mark? = [.begun, .ended]) :
    Alternating (log ++ xs) := by
  obtain ⟨k, hk⟩ := h
  rcases hxs with hxs | hxs
  · exact ⟨k, by rw [List.filterMap_append, hk, hxs, List.append_nil]⟩
  · refine ⟨k + 1, ?_⟩
    rw [List.filterMap_append, hk, hxs, List.replicate_succ', List.flatten_concat]

/-- What holds of a run after every call. -/
structure Kept (e : Executor (Scribe β)) (n : Nat) : Prop where
  tidied : e.Tidied
  marked : Marked e.surfaces
  frames : e.frames = n
  alternating : Alternating e.backend.log

omit [Backend β] in
/-- A call outside of frames adds no mark. -/
theorem Kept.outside {e e' : Executor (Scribe β)} {n : Nat} (h : Kept e n) (hout : Outside e e')
    (htidied : e'.Tidied) (hmarked : Marked e'.surfaces) : Kept e' n := by
  obtain ⟨xs, hlogs, hxs⟩ := hout
  refine ⟨htidied, hmarked, hlogs.frames.trans h.frames, ?_⟩
  rw [hlogs.log]
  exact h.alternating.append (.inl (marks_outside hxs))

/-- A frame keeps the marks in turn, whether or not there is a graph to draw. -/
theorem Kept.frame {e : Executor (Scribe β)} {n : Nat} (h : Kept e n) (state : FrameState) :
    Kept (e.frame state).1 (if (e.frame state).2.isNone then n + 1 else n) := by
  cases hdisposed : e.disposed with
  | true =>
      have hnothing : e.frame state = (e, some .disposed) := by simp [Executor.frame, hdisposed]
      rw [hnothing]
      exact h
  | false =>
      cases hcurrent : e.current with
      | none =>
          have hnothing : e.frame state = (e, some .notLoaded) := by
            simp [Executor.frame, hdisposed, hcurrent]
          rw [hnothing]
          exact h
      | some g =>
          cases hframe : e.frame state with
          | mk e' r =>
              have htidied := frame_tidied h.tidied state
              rw [hframe] at htidied
              have hmarked := h.marked.reworked (frame_reworked h.tidied state)
              rw [hframe] at hmarked
              obtain ⟨xs, hcalls, hlog, hframes⟩ :=
                frame_logs h.tidied.surfaces h.marked hdisposed hcurrent hframe
              refine ⟨htidied, hmarked, by rw [hframes, h.frames], ?_⟩
              rw [hlog]
              refine h.alternating.append (hcalls.marks fun c hc => ?_)
              obtain ⟨b, -, rfl⟩ := List.mem_map.1 hc
              exact ⟨b, rfl⟩

/-- A log of frames is kept from step to step. -/
theorem Logged.kept {e : Executor (Scribe β)} {n : Nat} (h : Logged e n) : Kept e n := by
  induction h with
  | @start b b' width height e h =>
      obtain ⟨v, w, hlog⟩ := start_log h
      obtain ⟨_, _, rfl⟩ := start_fresh h
      refine ⟨⟨fun id b hb => by simp at hb, by simp⟩, fun id b hb => by simp at hb, rfl, 0, ?_⟩
      rw [hlog]
      rfl
  | backend h b ih =>
      exact ⟨⟨ih.tidied.surfaces, ih.tidied.current⟩, ih.marked, ih.frames, ih.alternating⟩
  | @load e n h g alloc ih =>
      exact ih.outside (load_outside e g alloc) (load_tidied ih.tidied g alloc)
        (load_marked ih.marked g alloc)
  | frame h state ih => exact ih.frame state
  | @resize e n h width height ih =>
      exact ih.outside (resize_outside e width height) (resize_tidied ih.tidied width height)
        (by rw [(resize_keeps e width height).2.1]; exact ih.marked)
  | @dispose e n h ih =>
      refine ih.outside (dispose_outside e) (dispose_tidied ih.tidied) ?_
      unfold Executor.dispose
      split
      · exact ih.marked
      · intro id b hb
        exact absurd (show (∅ : Table BufferPair).get? id = some b from hb) (by simp)

end Executor

open Executor in
/-- The protocol of frames.  Whatever a backend refuses, the requests of a frame of a loaded
renderer are those of `FrameCalls`: the dispatches of its schedule in order, then the copies
of its feedbacks in the order of their names.  The frame is counted if and only if it
succeeds, so that a run counts its frames that succeeded, and the frames that were begun
have been ended one after another. -/
theorem frame_protocol {β : Type} [Backend β] {e : Executor (Scribe β)} {n : Nat} (h : Logged e n) :
    (∀ g state e' r, e.disposed = false → e.current = some g → e.frame state = (e', r) →
      (∃ xs, FrameCalls (e.frameState state) (g.jobs (e.frameState state).env)
          ((e.moved (g.jobs (e.frameState state).env)).map BufferPair.copy) xs r ∧
        e'.backend.log = e.backend.log ++ xs ∧ e'.frames = if r.isNone then e.frames +
          1 else e.frames) ∧
        (e.moved (g.jobs (e.frameState state).env)).Pairwise fun a b => a.id < b.id) ∧
      e.frames = n ∧ Alternating e.backend.log := by
  have hkept := h.kept
  refine ⟨fun g state e' r hdisposed hcurrent hframe =>
    ⟨?_, moved_pairwise hkept.tidied.surfaces _⟩,
    hkept.frames, hkept.alternating⟩
  exact frame_logs hkept.tidied.surfaces hkept.marked hdisposed hcurrent hframe

/-- The renderer of `trail` on a backend that cannot copy, its requests written down. -/
def watched : Executor (Scribe Recorder) :=
  (Executor.load
    { backend := (runList Scribe.submit { inner := { failures := [(("CopyTexture", ""), "lost")] } }
    [.init, .resize 64 32]).1, width := 64, height := 32 } trail none).1

/-- A frame fails at its copy.  It was ended before that, and nothing is shown. -/
theorem watched_frame_calls :
    Executor.Logged watched 0 ∧ watched.disposed = false ∧
    watched.current = some (watched.current.getD default) ∧
      (watched.frame {}).2.isSome = true ∧ (watched.frame {}).1.frames = 0 ∧
      (∃ xs, FrameCalls (watched.frameState {})
        ((watched.current.getD default).jobs (watched.frameState {}).env)
          [.copyTexture "feedback_m#1" "feedback_m#0"] xs (watched.frame {}).2 ∧
        (watched.frame {}).1.backend.log = watched.backend.log ++ xs ∧
        xs.map (·.1.method) = ["BeginFrame", "ExecutePass", "ExecutePass", "EndFrame",
          "CopyTexture"]) := by
  have hstart : Executor.start
      ({ inner := { failures := [(("CopyTexture", ""), "lost")] } } : Scribe Recorder) 64 32 =
      (_, .ok _) := rfl
  have hlogged : Executor.Logged watched 0 := .load (.start hstart) trail none
  have hfacts : watched.disposed = false ∧ watched.current.isSome = true ∧
      (watched.frame {}).2.isSome = true ∧
      (watched.moved ((watched.current.getD default).jobs (watched.frameState {}).env)).map
        (fun b => (b.write, b.read)) = [("feedback_m#1", "feedback_m#0")] ∧
      (watched.frame {}).1.backend.log.map (·.1.method) = watched.backend.log.map (·.1.method) ++
        ["BeginFrame", "ExecutePass", "ExecutePass", "EndFrame", "CopyTexture"] := by
    decide +kernel
  obtain ⟨hdisposed, hloaded, hfails, hmoved, hlog⟩ := hfacts
  have hcurrent : watched.current = some (watched.current.getD default) := by
    obtain ⟨g, hg⟩ := Option.isSome_iff_exists.1 hloaded
    rw [hg, Option.getD_some]
  obtain ⟨hframes, hcounted, -⟩ := frame_protocol hlogged
  obtain ⟨⟨xs, hcalls, hxs, hcount⟩, -⟩ :=
    hframes _ {} (watched.frame {}).1 (watched.frame {}).2 hdisposed hcurrent rfl
  have hcopies :
      (watched.moved ((watched.current.getD default).jobs (watched.frameState {}).env)).map
      BufferPair.copy = [.copyTexture "feedback_m#1" "feedback_m#0"] := by
    have hpairs := congrArg (List.map fun x : String × String => Request.copyTexture x.1 x.2) hmoved
    rwa [List.map_map] at hpairs
  rw [hcopies] at hcalls
  refine ⟨hlogged, hdisposed, hcurrent, hfails, ?_, xs, hcalls, hxs, ?_⟩
  · rw [hcount, hcounted, Option.isNone_eq_false_iff.2 hfails]
    rfl
  · rw [hxs, List.map_append] at hlog
    exact List.append_cancel_left hlog

end EffectChain
