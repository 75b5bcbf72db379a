import EffectChain.Proofs.Render.FailedFrame

/-!
# EffectChain.Proofs.Render.Reworked

What a frame may do to surfaces, whether it succeeds or not.

No surface comes or goes.  Buffers change places, marks are set on feedbacks and taken away,
and that is all (`BufferPair.Reworks`).

* `Executor.frame_reworked` — a frame does no more than that.
-/

namespace EffectChain

/-- The buffers are the same, in one order or the other, and a mark that is new is one of a
feedback. -/
structure BufferPair.Reworks (b b' : BufferPair) : Prop where
  id : b'.id = b.id
  buffers : b'.read = b.read ∧ b'.write = b.write ∨ b'.read = b.write ∧ b'.write = b.read
  marked : b'.dirty = true → b.dirty = true ∨ b.isFeedback = true

namespace BufferPair

variable {b b' b'' : BufferPair}

theorem Reworks.refl (b : BufferPair) : b.Reworks b := ⟨rfl, .inl ⟨rfl, rfl⟩, .inl⟩

/-- A pair reworked twice is reworked. -/
theorem Reworks.trans (h : b.Reworks b') (h' : b'.Reworks b'') : b.Reworks b'' where
  id := h'.id.trans h.id
  buffers := by grind [h.buffers, h'.buffers]
  marked := by
    intro hdirty
    rcases h'.marked hdirty with hdirty | hfb
    · exact h.marked hdirty
    · rw [isFeedback, h.id] at hfb
      exact .inr hfb

/-- No buffer is new. -/
theorem Reworks.buffer (h : b.Reworks b') {t : String} (ht : t = b'.read ∨ t = b'.write) :
    t ∈ b.buffers := by
  rw [mem_buffers_iff]
  rcases h.buffers with ⟨hr, hw⟩ | ⟨hr, hw⟩
  · rwa [hr, hw] at ht
  · rw [hr, hw] at ht
    exact ht.symm

theorem reworks_swap (b : BufferPair) : b.Reworks b.swap := ⟨rfl, .inr ⟨rfl, rfl⟩, .inl⟩

theorem reworks_cleared (b : BufferPair) : b.Reworks b.cleared := ⟨rfl, .inl ⟨rfl, rfl⟩, nofun⟩

/-- Turning reworks a pair. -/
theorem reworks_turned (b : BufferPair) (n : Nat) : b.Reworks (b.turned n) := by
  unfold turned
  rw [swap_iterate]
  split
  · exact .refl b
  · split
    · exact .refl b
    · exact b.reworks_swap

/-- A surface that was turned and has its mark, or one that a feedback gets. -/
theorem reworks_withDirty (b : BufferPair) (n : Nat) {dirty : Bool}
    (h : dirty = true → b.dirty = true ∨ b.isFeedback = true) :
    b.Reworks { b.turned n with dirty } :=
  have hturned := b.reworks_turned n
  ⟨hturned.id, hturned.buffers, h⟩

theorem reworks_after (ws : List (List String)) (id : String) (b : BufferPair) :
    b.Reworks (b.after ws id) := by
  refine b.reworks_withDirty _ fun h => ?_
  simp only [Bool.or_eq_true, Bool.and_eq_true] at h
  exact h.imp_right And.left

theorem reworks_during (ws : List (List String)) (w : List String) (id : String) (b : BufferPair) :
    b.Reworks (b.during ws w id) :=
  b.reworks_withDirty _ (reworks_after ws id b).marked

end BufferPair

/-- Every surface is there still, reworked, and no other is. -/
def Reworked (s s' : Table BufferPair) : Prop :=
  ∃ k : String → BufferPair → BufferPair,
    (∀ id, s'.get? id = (s.get? id).map (k id)) ∧ ∀ id b, BufferPair.Reworks b (k id b)

namespace Reworked

variable {β : Type} {s s' s'' : Table BufferPair} {ws : List (List String)} {f f' : Frame β}

theorem refl (s : Table BufferPair) : Reworked s s := ⟨fun _ b => b, by simp, fun _ => .refl⟩

theorem of_eq (h : s' = s) : Reworked s s' := h ▸ .refl s'

/-- Surfaces reworked twice are reworked. -/
theorem trans (h : Reworked s s') (h' : Reworked s' s'') : Reworked s s'' := by
  obtain ⟨k, hget, hk⟩ := h
  obtain ⟨k', hget', hk'⟩ := h'
  refine ⟨fun id b => k' id (k id b), fun id => ?_, fun id b => (hk id b).trans (hk' id _)⟩
  rw [hget', hget, Option.map_map]
  rfl

theorem map (s : Table BufferPair) {k : String → BufferPair → BufferPair}
    (hk : ∀ id b, BufferPair.Reworks b (k id b)) :
    Reworked s (s.map k) :=
  ⟨k, fun id => s.get?_map k id, hk⟩

theorem contains (h : Reworked s s') (id : String) : s'.contains id = s.contains id := by
  obtain ⟨k, hget, -⟩ := h
  rw [Table.contains, hget, Option.isSome_map]
  rfl

/-- Dispatches that succeed rework surfaces. -/
theorem drawn (h : Drawn s ws f) : Reworked s f.exec.surfaces :=
  ⟨_, h.surfaces, BufferPair.reworks_after ws⟩

variable [Backend β]

/-- So does a dispatch that fails. -/
theorem fails {p : Graph.Pass} {u : Table Datum} {n : Int} {err : RenderError} (h : Drawn s ws f)
    (hd : Frame.dispatch p u f n = (f', some err)) : Reworked s f'.exec.surfaces :=
  ⟨_, h.fails hd, BufferPair.reworks_during ws _⟩

/-- Aborting a frame reworks the surfaces. -/
theorem abort (f : Frame β) (err : RenderError) :
    Reworked f.exec.surfaces (f.abort err).1.surfaces := by
  have hcleared := Reworked.map f.exec.surfaces fun _ b => b.reworks_cleared
  unfold Frame.abort
  dsimp only
  split <;> next hsub => rw [Executor.surfaces_submit hsub]; exact hcleared

/-- Feedbacks that are moved, up to the first that is refused. -/
theorem settles {bs : List BufferPair} {e e' : Executor β} {r : Option RenderError}
    (hbs : ∀ b ∈ bs, e.surfaces.get? b.id = some b) (h : runList Frame.settle e bs = (e', r)) :
    Reworked e.surfaces e'.surfaces := by
  have hdone : ∀ {done : List BufferPair} {e₁ : Executor β}, (∀ b ∈ done, b ∈ bs) →
      runList Frame.settle e done = (e₁, none) → Reworked e.surfaces e₁.surfaces := by
    intro done e₁ hsub hrun
    refine ⟨_, Frame.settle_surfaces done (fun b hb => by rw [hbs b (hsub b hb)]; rfl) hrun,
      fun id b => ?_⟩
    split
    · exact b.reworks_cleared
    · exact .refl b
  cases r with
  | none => exact hdone (fun _ hb => hb) h
  | some err =>
      obtain ⟨done, b, rest, e₁, rfl, hrun, hb⟩ := runList_some h
      refine (hdone (fun b hb => List.mem_append_left _ hb) hrun).trans (.of_eq ?_)
      unfold Frame.settle at hb
      split at hb
      · next hsub =>
          obtain rfl := (Prod.mk.inj hb).1
          exact Executor.surfaces_submit hsub
      · simp at hb

/-- The end of a frame moves feedbacks and turns what was written. -/
theorem finish (htidy : Tidy f.exec.surfaces) : Reworked f.exec.surfaces f.finish.1.surfaces := by
  unfold Frame.finish
  split
  · next hsub => exact .of_eq (Executor.surfaces_submit hsub)
  · next e₁ hsub =>
      have hended := Executor.surfaces_submit hsub
      rw [← hended] at htidy ⊢
      have hstored : ∀ b ∈ e₁.surfaces.values.filter (·.dirty), e₁.surfaces.get? b.id = some b := by
        intro b hb
        obtain ⟨id, hid⟩ := Table.mem_values_iff.1 (List.mem_filter.1 hb).1
        rwa [(htidy id b hid).2.1]
      have hswapped := fun s => Reworked.map s fun id b =>
        show b.Reworks (if f.written.contains id then b.swap else b) by
          split
          · exact b.reworks_swap
          · exact .refl b
      split
      · next hrun => exact settles hstored hrun
      · next e₂ hrun =>
          have hsettled := settles hstored hrun
          dsimp only
          cases hshown : f.shown? with
          | none => exact hsettled.trans (hswapped e₂.surfaces)
          | some t =>
              dsimp only
              split
              · next hsub' => exact hsettled.trans (.of_eq (Executor.surfaces_submit hsub'))
              · next e₃ hsub' =>
                  rw [← Executor.surfaces_submit hsub'] at hsettled
                  exact hsettled.trans (hswapped e₃.surfaces)

end Reworked

namespace Executor

variable {β : Type} [Backend β] {e e' : Executor β}

/-- A frame that the backend does not begin. -/
theorem frame_notBegun {g : LoadedGraph} {state : FrameState} {r : Refusal}
    (hdisposed : e.disposed = false) (hcurrent : e.current = some g)
    (hbegin : e.submit (.beginFrame (e.frameState state)) = (e', some r)) :
    e.frame state = (e', some (.refused r)) := by
  unfold frameState at hbegin
  unfold frame
  rw [hdisposed, hcurrent]
  dsimp only
  rw [hbegin]
  rfl

/-- A frame reworks surfaces, whether it succeeds or not. -/
theorem frame_reworked (h : e.Tidied) (state : FrameState) :
    Reworked e.surfaces (e.frame state).1.surfaces := by
  cases hdisposed : e.disposed with
  | true => exact .of_eq (by simp [frame, hdisposed])
  | false =>
      cases hcurrent : e.current with
      | none => exact .of_eq (by simp [frame, hdisposed, hcurrent])
      | some g =>
          cases hbegin : e.submit (.beginFrame (e.frameState state)) with
          | mk e₁ r =>
              have hsurfaces := surfaces_submit hbegin
              cases r with
              | some r =>
                  rw [frame_notBegun hdisposed hcurrent hbegin]
                  exact .of_eq hsurfaces
              | none =>
                  rw [frame_eq hdisposed hcurrent hbegin]
                  have houtcome := groups_outcome g (Frame.opened e₁ g (e.frameState state)) rfl
                  have hopened := Drawn.opened e₁ g (e.frameState state)
                  rw [hsurfaces] at hopened
                  cases hrun : runList Frame.group (Frame.opened e₁ g (e.frameState state))
                      (Frame.stepGroups g.passes) with
                  | mk f r =>
                      rw [hrun] at houtcome
                      cases r with
                      | some err =>
                          obtain ⟨done, f₁, hdone, hperforms, hstop⟩ := houtcome
                          have hdrawn : Drawn e.surfaces (writes done) f₁ :=
                            hopened.performs hperforms
                          refine Reworked.trans ?_ (.abort f err)
                          rcases hstop.next hdone with rfl | ⟨j, u, n, err', -, hfails⟩
                          · exact .drawn hdrawn
                          · exact .fails hdrawn hfails
                      | none =>
                          have hdrawn : Drawn e.surfaces (writes _) f := hopened.performs houtcome
                          have htidy : Tidy f.exec.surfaces := by
                            have hkeeps :=
                              runList_keeps (f := Frame.group) (Frame.Keeps e₁.current)
                                Frame.Keeps.group
                              (Frame.stepGroups g.passes) (Frame.opened e₁ g (e.frameState state))
                              ⟨(submit_tidied h hbegin).surfaces, rfl⟩
                            rw [hrun] at hkeeps
                            exact hkeeps.1
                          exact (Reworked.drawn hdrawn).trans (.finish htidy)

end Executor

end EffectChain
