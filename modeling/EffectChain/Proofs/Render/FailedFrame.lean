import Mathlib.Algebra.Ring.Parity
import EffectChain.Proofs.Render.Buffers
import EffectChain.Render.Recorder

/-!
# EffectChain.Proofs.Render.FailedFrame

What a frame that fails leaves of the surfaces.

The buffers of a surface change places while outputs are bound, with every write after
the first dispatch that writes the surface (`turns`).  A frame that fails does not undo
that.  Feedbacks lose their marks when a dispatch fails, and keep them when the end of
the frame is refused.

* `Drawn.performs` — the surfaces after dispatches that succeed;
* `Drawn.fails` — the surfaces after one that does not;
* `failed_frame_effect` — the surfaces after a frame that failed, and which of them are as
  they were.
-/

namespace EffectChain

/-! ## buffers that change places -/

namespace BufferPair

theorem swap_involutive : Function.Involutive swap := fun _ => rfl

/-- The buffers after a number of changes; those of a feedback stay. -/
def turned (b : BufferPair) (n : Nat) : BufferPair := if b.isFeedback then b else swap^[n] b

/-- The surface without its mark. -/
def cleared (b : BufferPair) : BufferPair := { b with dirty := false }

/-- The buffers are those from before, and nothing waits to be moved. -/
def Untouched (b b' : BufferPair) : Prop := b'.read = b.read ∧ b'.write = b.write ∧ b'.dirty = false

theorem swap_iterate (b : BufferPair) (n : Nat) : swap^[n] b = if Even n then b else b.swap := by
  split
  · next h => rw [swap_involutive.iterate_even h, id_eq]
  · next h => rw [swap_involutive.iterate_odd (Nat.not_even_iff_odd.1 h)]

@[simp] theorem turned_zero (b : BufferPair) : b.turned 0 = b := by simp [turned]

/-- Turns of a pair add up. -/
theorem turned_turned (b : BufferPair) (m n : Nat) : (b.turned m).turned n = b.turned (m + n) := by
  unfold turned
  by_cases hfb : b.isFeedback
  · simp [hfb]
  · have hkeep : (swap^[m] b).isFeedback = b.isFeedback := by
      rw [swap_iterate]
      split <;> rfl
    simp only [hfb, hkeep, if_false, Bool.false_eq_true]
    rw [Nat.add_comm, Function.iterate_add_apply]

/-- Marks have nothing to do with it. -/
theorem turned_withDirty (b : BufferPair) (dirty : Bool) (n : Nat) :
    ({ b with dirty } : BufferPair).turned n = { b.turned n with dirty } := by
  have hkeep : ({ b with dirty } : BufferPair).isFeedback = b.isFeedback := rfl
  unfold turned
  rw [hkeep, swap_iterate, swap_iterate]
  split
  · rfl
  · split <;> rfl

@[simp] theorem id_turned (b : BufferPair) (n : Nat) : (b.turned n).id = b.id := by
  unfold turned
  rw [swap_iterate]
  split
  · rfl
  · split <;> rfl

@[simp] theorem isFeedback_turned (b : BufferPair) (n : Nat) :
    (b.turned n).isFeedback = b.isFeedback := by
  rw [isFeedback, id_turned, isFeedback]

/-- The buffers stand as before after an even number of changes.  Those of a feedback
never change, and a source has only one. -/
theorem Named.turned_same {id : String} {b : BufferPair} (h : b.Named id) (n : Nat) :
    (b.turned n).read = b.read ∧ (b.turned n).write = b.write ↔
      b.isFeedback = true ∨ Graph.isSource id = true ∨ Even n := by
  unfold turned
  by_cases hfb : b.isFeedback
  · simp [hfb]
  · have hsource : b.write = b.read ↔ Graph.isSource id = true := by
      constructor
      · intro heq
        by_contra hs
        exact h.read_ne_write (by simpa using hs) heq.symm
      · intro hs
        obtain ⟨-, ⟨hr, hw⟩ | ⟨hr, hw⟩⟩ := h <;> simp [hr, hw, second, hs]
    rw [if_neg hfb, swap_iterate]
    by_cases heven : Even n
    · simp [heven]
    · simp only [heven, hfb, if_false, or_false, Bool.false_eq_true, false_or, ← hsource]
      exact ⟨fun hsame => hsame.1, fun heq => ⟨heq, heq.symm⟩⟩

end BufferPair

/-- What dispatches write, one after another. -/
def writes (js : List Job) : List (List String) := js.map (·.pass.outputs.values)

/-- How often the buffers of a surface change places: with every write after the first
dispatch that writes it. -/
def turns (id : String) : List (List String) → Nat
  | [] => 0
  | w :: ws => if id ∈ w then ws.flatten.count id else turns id ws

/-- The turns of one more dispatch. -/
theorem turns_concat (id : String) (ws : List (List String)) (w : List String) :
    turns id (ws ++ [w]) = turns id ws + if id ∈ ws.flatten then w.count id else 0 := by
  induction ws with
  | nil => simp [turns]
  | cons v ws ih =>
      rw [List.cons_append, turns, turns]
      by_cases hv : id ∈ v
      · simp [hv]
      · simp [hv, ih]

namespace Frame

variable {β : Type} {f f' : Frame β} {pass id : String}

/-! ## binding outputs -/

/-- The texture has a buffer or a slot. -/
def bindable (f : Frame β) (id : String) : Bool :=
  f.exec.surfaces.contains id || (f.slot? id).isSome

/-- A surface that is written turns with every binding. -/
theorem turn_iterate (f : Frame β) (id : String) (b : BufferPair) (n : Nat) :
    (f.turn id)^[n] b = if f.written.contains id then b.turned n else b := by
  induction n generalizing b with
  | zero => simp
  | succ n ih =>
      rw [Function.iterate_succ_apply, ih]
      unfold turn BufferPair.turned
      by_cases hw : f.written.contains id <;> by_cases hfb : b.isFeedback
      · simp [hw, hfb]
      · have hswap : b.swap.isFeedback = b.isFeedback := rfl
        simp [hw, hfb, hswap]
      · simp [hw]
      · simp [hw]

/-- Outputs are bound up to the first that is nowhere stored, and with each of them its
surface is turned. -/
theorem bindOutputs_turns (pass : String) (outs : List (String × String)) (f : Frame β)
    (bound : Table String) :
    ∃ s, (bindOutputs pass f bound outs).1 = f.withSurfaces s ∧
      (∀ id, s.get? id =
        (f.exec.surfaces.get? id).map
          (f.turn id)^[((outs.map (·.2)).takeWhile f.bindable).count id]) ∧
      ∀ r, (bindOutputs pass f bound outs).2 = .ok r → (outs.map (·.2)).takeWhile f.bindable =
        outs.map (·.2) := by
  induction outs generalizing f bound with
  | nil => exact ⟨f.exec.surfaces, rfl, by simp, by simp⟩
  | cons o outs ih =>
      obtain ⟨n, i⟩ := o
      rw [bindOutputs, List.map_cons, List.takeWhile_cons]
      cases hs : f.exec.surfaces.get? i with
      | none =>
          rw [bindWrite_stored hs]
          cases ht : f.stored pass i with
          | error e =>
              have hnot : f.bindable i = false := by
                cases hslot : f.slot? i with
                | none => simp [bindable, Table.contains, hs, hslot]
                | some t => simp [stored_eq_ok.2 hslot] at ht
              exact ⟨f.exec.surfaces, rfl, by simp [hnot], by simp⟩
          | ok t =>
              have hyes : f.bindable i = true := by simp [bindable, stored_eq_ok.1 ht]
              obtain ⟨s, hframe, hget, hall⟩ := ih f (bound.insert n t)
              refine ⟨s, hframe, fun id => ?_, fun r hr => by rw [if_pos hyes, hall r hr]⟩
              by_cases hid : id = i
              · subst hid
                simp [hget, hs]
              · rw [hget, if_pos hyes, List.count_cons_of_ne (Ne.symm hid)]
      | some b =>
          have hyes : f.bindable i = true := by simp [bindable, Table.contains, hs]
          have hsame : (f.withSurfaces (f.exec.surfaces.insert i (f.turn i b))).bindable =
              f.bindable := by
            funext a
            by_cases ha : a = i
            · simp [bindable, Table.contains, ha, hs]
            · simp [bindable, ha]
          rw [bindWrite_surface hs]
          obtain ⟨s, hframe, hget, hall⟩ :=
            ih (f.withSurfaces (f.exec.surfaces.insert i (f.turn i b)))
            (bound.insert n (f.turn i b).write)
          rw [hsame] at hget hall
          refine ⟨s, hframe, fun id => ?_, fun r hr => by rw [if_pos hyes, hall r hr]⟩
          rw [hget, if_pos hyes]
          change ((f.exec.surfaces.insert i (f.turn i b)).get? id).map (f.turn id)^[_] = _
          by_cases hid : id = i
          · subst hid
            rw [Table.get?_insert, if_pos rfl, hs, List.count_cons_self, Option.map_some,
              Option.map_some, Function.iterate_succ_apply]
          · rw [Table.get?_insert, if_neg hid, List.count_cons_of_ne (Ne.symm hid)]

/-- The outputs of a pass that are bound before a dispatch of it fails: none when an input
is nowhere stored, else those before the first output that is nowhere stored. -/
def bound (f : Frame β) (p : Graph.Pass) : List String :=
  match f.bindInputs p.id p.inputs with
  | .error _ => []
  | .ok _ => p.outputs.values.takeWhile f.bindable

/-- A dispatch that fails has bound its outputs as far as it came. -/
theorem dispatch_fails [Backend β] {p : Graph.Pass} {u : Table Datum} {n : Int} {e : RenderError}
    (h : dispatch p u f n = (f', some e)) (id : String) :
    f'.exec.surfaces.get? id = (f.exec.surfaces.get? id).map
      (f.turn id)^[(f.bound p).count id] := by
  unfold dispatch at h
  split at h
  · next hin =>
      rw [bound, hin, ← (Prod.mk.inj h).1]
      simp
  · next inputs hin =>
      rw [bound, hin]
      obtain ⟨s, hframe, hget, -⟩ := bindOutputs_turns p.id p.outputs.entries f {}
      have hvalues : p.outputs.entries.map (·.2) = p.outputs.values := rfl
      rw [hvalues] at hget
      rw [← hget id]
      split at h
      · next f₁ e' hout =>
          rw [hout] at hframe
          obtain rfl : f₁ = f.withSurfaces s := hframe
          rw [← (Prod.mk.inj h).1, surfaces_withSurfaces]
      · next f₁ outputs hout =>
          rw [hout] at hframe
          obtain rfl : f₁ = f.withSurfaces s := hframe
          split at h
          · rw [← (Prod.mk.inj h).1, surfaces_withSurfaces]
          · dsimp only at h
            split at h
            · next exec r hsub =>
                rw [← (Prod.mk.inj h).1, ← (Prod.mk.inj hsub).1]
                rfl
            · simp at h

end Frame

/-! ## surfaces in the course of a frame -/

namespace BufferPair

/-- The surface after dispatches that wrote the given textures. -/
def after (ws : List (List String)) (id : String) (b : BufferPair) : BufferPair :=
  { b.turned (turns id ws) with dirty := b.dirty || b.isFeedback && decide (id ∈ ws.flatten) }

/-- The surface when the next dispatch has bound the given textures and written nothing. -/
def during (ws : List (List String)) (w : List String) (id : String) (b : BufferPair) :
    BufferPair :=
  { b.turned (turns id (ws ++ [w])) with dirty := (b.after ws id).dirty }

theorem isFeedback_during (ws : List (List String)) (w : List String) (id : String)
    (b : BufferPair) :
    (b.during ws w id).isFeedback = b.isFeedback :=
  isFeedback_turned b _

theorem after_nil (id : String) (b : BufferPair) : b.after [] id = b := by simp [after, turns]

/-- What was bound is written, and a feedback is marked. -/
theorem after_concat (ws : List (List String)) (w : List String) (id : String) (b : BufferPair) :
    b.after (ws ++ [w]) id =
      if id ∈ w ∧ b.isFeedback then { b.during ws w id with dirty := true } else b.during ws w
        id := by
  by_cases hw : id ∈ w ∧ b.isFeedback = true
  · rw [if_pos hw]
    simp [after, during, hw]
  · rw [if_neg hw, after, during, after]
    congr 2
    grind

end BufferPair

/-- The frame has made dispatches that wrote the given textures, and it started with the
given surfaces. -/
structure Drawn {β : Type} (s : Table BufferPair) (ws : List (List String)) (f : Frame β) :
    Prop where
  surfaces : ∀ id, f.exec.surfaces.get? id = (s.get? id).map (BufferPair.after ws id)
  written : ∀ id b, s.get? id = some b → b.isFeedback = false →
    f.written.contains id = decide (id ∈ ws.flatten)

namespace Drawn

variable {β : Type} {s : Table BufferPair} {ws : List (List String)} {f f' : Frame β}

/-- An opened frame has drawn nothing. -/
theorem opened (e : Executor β) (g : LoadedGraph) (state : FrameState) :
    Drawn e.surfaces [] (Frame.opened e g state) where
  surfaces id := by
    have hafter : BufferPair.after [] id = fun b => b := funext (BufferPair.after_nil id)
    rw [hafter, Option.map_id']
    rfl
  written := by simp [Frame.opened]

/-- Binding textures turns a surface once for each of them, when it was written before. -/
theorem bind (h : Drawn s ws f) (w : List String) (id : String) :
    (f.exec.surfaces.get? id).map (f.turn id)^[w.count id] =
      (s.get? id).map (BufferPair.during ws w id) := by
  rw [h.surfaces, Option.map_map]
  cases hb : s.get? id with
  | none => rfl
  | some b =>
      rw [Option.map_some, Option.map_some, Function.comp_apply, Frame.turn_iterate,
        BufferPair.during, turns_concat]
      congr 1
      cases hfb : b.isFeedback with
      | true =>
          have hstays : ∀ n, b.turned n = b := fun n => by simp [BufferPair.turned, hfb]
          have hstays' : ∀ n, (b.after ws id).turned n = b.after ws id := fun n => by
            rw [BufferPair.after, BufferPair.turned_withDirty, hstays, hstays]
          rw [hstays', ite_self, hstays, BufferPair.after, hstays]
      | false =>
          rw [h.written id b hb hfb]
          by_cases hw : id ∈ ws.flatten
          · rw [if_pos (by simpa using hw), if_pos hw, BufferPair.after,
              BufferPair.turned_withDirty, BufferPair.turned_turned]
          · rw [if_neg (by simpa using hw), if_neg hw]
            rfl

/-- What was bound is noted. -/
theorem commit {outputs : Table String} (h : Drawn s ws f) (hwritten : f'.written = f.written)
    (hbound : ∀ id,
      f'.exec.surfaces.get? id = (s.get? id).map (BufferPair.during ws outputs.values id)) :
    Drawn s (ws ++ [outputs.values]) (f'.commit outputs) := by
  refine ⟨fun id => ?_, fun id b hb hfb => ?_⟩
  · rw [Frame.commit_surface, hbound, Option.map_map]
    congr 1
    funext b
    rw [Function.comp_apply, BufferPair.after_concat, BufferPair.isFeedback_during]
  · have hb' : f'.exec.surfaces.get? id =
      some (b.during ws outputs.values id) := by rw [hbound, hb, Option.map_some]
    have hfb' := (BufferPair.isFeedback_during ws outputs.values id b).trans hfb
    rw [(Frame.commit_noted outputs hb' hfb').2, hwritten, h.written id b hb hfb]
    simp [Bool.or_comm]

variable [Backend β] {p : Graph.Pass} {u : Table Datum} {n : Int}

/-- One dispatch that succeeds. -/
theorem dispatch (h : Drawn s ws f) (hd : Frame.dispatch p u f n = (f', none)) :
    Drawn s (ws ++ [p.outputs.values]) f' := by
  obtain ⟨inputs, f₁, outputs, d, exec, -, hout, -, -, -, hsub, rfl⟩ := Frame.dispatch_none hd
  obtain ⟨s₁, hframe, hget, hall⟩ := Frame.bindOutputs_turns p.id p.outputs.entries f {}
  rw [hout] at hframe hall
  obtain rfl : f₁ = f.withSurfaces s₁ := hframe
  have hvalues : (p.outputs.entries.map (·.2)).takeWhile f.bindable = p.outputs.values :=
    hall outputs rfl
  obtain rfl := (Prod.mk.inj hsub).1
  refine h.commit rfl fun id => ?_
  rw [← h.bind, ← hvalues, ← hget]
  rfl

/-- Dispatches that succeed one after another. -/
theorem performs {js : List Job} (h : Drawn s ws f) (hrun : Performs f js f') :
    Drawn s (ws ++ writes js) f' := by
  induction hrun generalizing ws with
  | nil f => simpa [writes] using h
  | cons u n first _ ih => simpa [writes] using ih (h.dispatch first)

/-- One dispatch that fails. -/
theorem fails {e : RenderError} (h : Drawn s ws f) (hd : Frame.dispatch p u f n = (f', some e))
    (id : String) :
    f'.exec.surfaces.get? id = (s.get? id).map (BufferPair.during ws (f.bound p) id) := by
  rw [Frame.dispatch_fails hd, h.bind]

end Drawn

/-! ## the end of a frame -/

/-- A list of steps that stops has made the steps before the one that stops it. -/
theorem runList_some {α σ ε : Type} {f : σ → α → σ × Option ε} {as : List α} {s s' : σ} {e : ε}
    (h : runList f s as = (s', some e)) :
    ∃ done a rest s₁, as = done ++ a :: rest ∧ runList f s done = (s₁, none) ∧
    f s₁ a = (s', some e) := by
  induction as generalizing s with
  | nil => simp [runList] at h
  | cons a as ih =>
      rw [runList] at h
      cases hs : f s a with
      | mk s₁ r =>
          rw [hs] at h
          cases r with
          | some e' => exact ⟨[], a, as, s, rfl, rfl, by rw [hs]; exact h⟩
          | none =>
              obtain ⟨done, b, rest, s₂, rfl, hdone, hb⟩ := ih h
              refine ⟨a :: done, b, rest, s₂, rfl, ?_, hb⟩
              rw [runList, hs]
              exact hdone

theorem Executor.surfaces_submit {β : Type} [Backend β] {e e' : Executor β} {c : Request}
    {r : Option Refusal} (h : e.submit c = (e', r)) : e'.surfaces = e.surfaces := by
  obtain rfl : (e.submit c).1 = e' := congrArg Prod.fst h
  rfl

namespace Frame

variable {β : Type} [Backend β]

/-- The feedbacks that wait to be moved. -/
def pending (f : Frame β) : List BufferPair := f.exec.surfaces.values.filter (·.dirty)

/-- Feedbacks that were moved lose their marks. -/
theorem settle_surfaces (bs : List BufferPair) {e e' : Executor β}
    (hbs : ∀ b ∈ bs, (e.surfaces.get? b.id).map BufferPair.cleared = some b.cleared)
    (h : runList settle e bs = (e', none)) (id : String) :
    e'.surfaces.get? id =
      (e.surfaces.get? id).map fun b => if id ∈ bs.map (·.id) then b.cleared else b := by
  induction bs generalizing e with
  | nil =>
      obtain rfl : e = e' := (Prod.mk.inj h).1
      simp
  | cons b bs ih =>
      rw [runList, settle] at h
      cases hsub : e.submit (.copyTexture b.write b.read) with
      | mk e₁ r =>
          have hsurfaces := Executor.surfaces_submit hsub
          rw [hsub] at h
          cases r with
          | some r => simp at h
          | none =>
              have hb := hbs b List.mem_cons_self
              rw [← hsurfaces] at hb hbs ⊢
              dsimp only at h
              generalize hs : e₁.surfaces.insert b.id { b with dirty := false } = s at h
              have hget : ∀ a, s.get? a = if a = b.id then some b.cleared
                  else e₁.surfaces.get? a := by
                intro a
                rw [← hs, Table.get?_insert]
                rfl
              have hrest : ∀ c ∈ bs, (s.get? c.id).map BufferPair.cleared = some c.cleared := by
                intro c hc
                have hc := hbs c (List.mem_cons_of_mem b hc)
                rw [hget]
                split
                · next hid => rw [← hc, hid, hb]; rfl
                · exact hc
              rw [ih (e := { e₁ with surfaces := s }) hrest h]
              change (s.get? id).map _ = _
              rw [hget, List.map_cons]
              by_cases hid : id = b.id
              · rw [if_pos hid, hid]
                cases hold : e₁.surfaces.get? b.id with
                | none => simp [hold] at hb
                | some c =>
                    have hsame : c.cleared = b.cleared := by simpa [hold] using hb
                    rw [Option.map_some, Option.map_some, if_pos List.mem_cons_self, hsame]
                    split <;> rfl
              · simp [hid]

/-- The end of a frame fails when the backend does not end it, does not move a feedback
or does not show the result. -/
theorem finish_fails {f : Frame β} {e' : Executor β} {err : RenderError}
    (h : f.finish = (e', some err)) :
    (∃ r, (f.exec.submit .endFrame).2 = some r ∧ e'.surfaces = f.exec.surfaces) ∨
      ∃ e₁, f.exec.submit .endFrame = (e₁, none) ∧
        ((∃ (settled : List BufferPair) (b : BufferPair) (rest : List BufferPair) (e₂ : Executor β)
          (r : Refusal), f.pending = settled ++ b :: rest ∧ runList settle e₁ settled = (e₂, none) ∧
            (e₂.submit (.copyTexture b.write b.read)).2 = some r ∧ e'.surfaces = e₂.surfaces) ∨
          ∃ e₂ t r, runList settle e₁ f.pending = (e₂, none) ∧ f.shown? = some t ∧
            (e₂.submit (.present t)).2 = some r ∧ e'.surfaces = e₂.surfaces) := by
  unfold finish at h
  cases hend : f.exec.submit .endFrame with
  | mk e₁ r =>
      have hsurfaces := Executor.surfaces_submit hend
      rw [hend] at h
      cases r with
      | some r => exact .inl ⟨r, rfl, by rw [← (Prod.mk.inj h).1, hsurfaces]⟩
      | none =>
          refine .inr ⟨e₁, rfl, ?_⟩
          have hpending : e₁.surfaces.values.filter (·.dirty) = f.pending := by
            rw [hsurfaces, pending]
          dsimp only at h
          rw [hpending] at h
          cases hrun : runList settle e₁ f.pending with
          | mk e₂ r =>
              rw [hrun] at h
              cases r with
              | some err' =>
                  obtain ⟨settled, b, rest, e₃, hsplit, hdone, hb⟩ := runList_some hrun
                  obtain rfl : e₂ = e' := (Prod.mk.inj h).1
                  refine .inl ⟨settled, b, rest, e₃, ?_⟩
                  unfold settle at hb
                  cases hsub : e₃.submit (.copyTexture b.write b.read) with
                  | mk e₄ r =>
                      rw [hsub] at hb
                      cases r with
                      | none => simp at hb
                      | some r =>
                          refine ⟨r, hsplit, hdone, rfl, ?_⟩
                          rw [← (Prod.mk.inj hb).1, Executor.surfaces_submit hsub]
              | none =>
                  dsimp only at h
                  cases hshown : f.shown? with
                  | none => simp [hshown] at h
                  | some t =>
                      rw [hshown] at h
                      dsimp only at h
                      cases hsub : e₂.submit (.present t) with
                      | mk e₃ r =>
                          rw [hsub] at h
                          cases r with
                          | none => simp at h
                          | some r =>
                              refine .inr ⟨e₂, t, r, rfl, rfl, by rw [hsub], ?_⟩
                              rw [← (Prod.mk.inj h).1, Executor.surfaces_submit hsub]

end Frame

/-! ## frames that fail -/

/-- Where a frame can break down. -/
inductive Breakdown where
  /-- The frame is not begun. -/
  | opening
  /-- After dispatches, with textures bound for the next one. -/
  | drawing (done : List Job) (bound : List String)
  /-- After all dispatches, with feedbacks moved. -/
  | closing (done : List Job) (settled : List String)

namespace Breakdown

/-- What becomes of a surface. -/
def leaves : Breakdown → String → BufferPair → BufferPair
  | .opening, _, b => b
  | .drawing done bound, id, b => (b.during (writes done) bound id).cleared
  | .closing done settled, id, b =>
    if id ∈ settled then (b.after (writes done) id).cleared else b.after (writes done) id

/-- The surface was turned an even number of times, if it can be turned at all, and what
was written to a feedback is moved or forgotten. -/
def Spares : Breakdown → String → BufferPair → Prop
  | .opening, _, b => b.dirty = false
  | .drawing done bound, id, b =>
    b.isFeedback = true ∨ Graph.isSource id = true ∨ Even (turns id (writes done ++ [bound]))
  | .closing done settled, id, b =>
    (b.isFeedback = true ∨ Graph.isSource id = true ∨ Even (turns id (writes done))) ∧
      (id ∈ settled ∨ b.dirty = false ∧ ¬ (b.isFeedback = true ∧ id ∈ (writes done).flatten))

/-- A breakdown leaves a surface untouched just when it spares it. -/
theorem untouched_leaves {id : String} {b : BufferPair} (hb : b.Named id) (k : Breakdown) :
    b.Untouched (k.leaves id b) ↔ k.Spares id b := by
  unfold BufferPair.Untouched
  cases k with
  | opening => simp [leaves, Spares]
  | drawing done bound =>
      rw [Spares, ← hb.turned_same, leaves]
      simp [BufferPair.cleared, BufferPair.during]
  | closing done settled =>
      rw [Spares, ← hb.turned_same, leaves]
      by_cases hid : id ∈ settled
      · simp [hid, BufferPair.cleared, BufferPair.after]
      · simp [hid, BufferPair.after, and_assoc]

end Breakdown

variable {β : Type} [Backend β]

/-- The frame of a graph breaks down there. -/
inductive BreaksDown (e : Executor β) (g : LoadedGraph) (state : FrameState) : Breakdown → Prop
  | opening {r : Refusal} (hbegin : (e.submit (.beginFrame state)).2 = some r) : BreaksDown e g
      state .opening
  /-- A condition has no value or a program is missing. -/
  | between {e₁ : Executor β} {f : Frame β} {done : List Job} {err : RenderError}
      (hbegin : e.submit (.beginFrame state) = (e₁, none)) (hdone : done <+: g.jobs state.env)
      (hperforms : Performs (Frame.opened e₁ g state) done f)
      (hstops : runList Frame.group (Frame.opened e₁ g state) (Frame.stepGroups g.passes) =
        (f, some err)) :
      BreaksDown e g state (.drawing done [])
  /-- A dispatch fails. -/
  | dispatching {e₁ : Executor β} {f f' : Frame β} {done : List Job} {j : Job} {u : Table Datum}
      {n : Int}
      {err err' : RenderError}
      (hbegin : e.submit (.beginFrame state) = (e₁, none))
        (hdone : done ++ [j] <+: g.jobs state.env)
      (hperforms : Performs (Frame.opened e₁ g state) done f)
      (hfails : Frame.dispatch j.pass u f n = (f', some err))
      (hstops : runList Frame.group (Frame.opened e₁ g state) (Frame.stepGroups g.passes) =
        (f', some err')) :
      BreaksDown e g state (.drawing done (f.bound j.pass))
  | ending {e₁ : Executor β} {f : Frame β} {r : Refusal}
      (hbegin : e.submit (.beginFrame state) = (e₁, none))
      (hdrawn : runList Frame.group (Frame.opened e₁ g state) (Frame.stepGroups g.passes) =
        (f, none))
      (hrefused : (f.exec.submit .endFrame).2 = some r) :
      BreaksDown e g state (.closing (g.jobs state.env) [])
  | copying {e₁ e₂ e₃ : Executor β} {f : Frame β} {settled rest : List BufferPair} {b : BufferPair}
      {r : Refusal}
      (hbegin : e.submit (.beginFrame state) = (e₁, none))
      (hdrawn : runList Frame.group (Frame.opened e₁ g state) (Frame.stepGroups g.passes) =
        (f, none))
      (hended : f.exec.submit .endFrame = (e₂, none)) (hpending : f.pending = settled ++ b :: rest)
      (hsettled : runList Frame.settle e₂ settled = (e₃, none))
      (hrefused : (e₃.submit (.copyTexture b.write b.read)).2 = some r) :
      BreaksDown e g state (.closing (g.jobs state.env) (settled.map (·.id)))
  | presenting {e₁ e₂ e₃ : Executor β} {f : Frame β} {t : String} {r : Refusal}
      (hbegin : e.submit (.beginFrame state) = (e₁, none))
      (hdrawn : runList Frame.group (Frame.opened e₁ g state) (Frame.stepGroups g.passes) =
        (f, none))
      (hended : f.exec.submit .endFrame = (e₂, none))
        (hsettled : runList Frame.settle e₂ f.pending = (e₃, none))
      (hshown : f.shown? = some t) (hrefused : (e₃.submit (.present t)).2 = some r) :
      BreaksDown e g state (.closing (g.jobs state.env) (f.pending.map (·.id)))

/-- The surfaces of a frame that is ended early, with textures bound for the next dispatch. -/
theorem abort_leaves {s : Table BufferPair} {f : Frame β} {done : List Job} {bound : List String}
    (h : ∀ id, f.exec.surfaces.get? id = (s.get? id).map (BufferPair.during (writes done) bound id))
    (err : RenderError) :
    (f.abort err).1.surfaces = s.map (Breakdown.drawing done bound).leaves := by
  have hcleared : (f.abort err).1.surfaces = f.exec.surfaces.map fun _ b => b.cleared := by
    unfold Frame.abort
    dsimp only
    split <;> next hsub => exact Executor.surfaces_submit hsub
  refine Table.ext_get? fun id => ?_
  rw [hcleared, Table.get?_map, Table.get?_map, h, Option.map_map]
  rfl

/-- The surfaces of a frame with feedbacks moved. -/
theorem settled_leaves {s : Table BufferPair} {f : Frame β} {done : List Job} {e e' : Executor β}
    {settled : List BufferPair} (h : Drawn s (writes done) f) (htidy : Tidy f.exec.surfaces)
    (he : e.surfaces = f.exec.surfaces) (hsub : ∀ b ∈ settled, b ∈ f.pending)
    (hrun : runList Frame.settle e settled = (e', none)) :
    e'.surfaces = s.map (Breakdown.closing done (settled.map (·.id))).leaves := by
  have hstored : ∀ b ∈ settled, (e.surfaces.get? b.id).map BufferPair.cleared = some b.cleared := by
    intro b hb
    obtain ⟨id, hid⟩ := Table.mem_values_iff.1 (List.mem_filter.1 (hsub b hb)).1
    obtain rfl : b.id = id := (htidy id b hid).2.1
    rw [he, hid]
    rfl
  refine Table.ext_get? fun id => ?_
  rw [Frame.settle_surfaces settled hstored hrun, he, h.surfaces, Table.get?_map, Option.map_map]
  rfl

/-- The surfaces after a frame that failed depend on where it broke down, and are as before
where that spares them.  So a surface that was written twice is left with its buffers
exchanged when a dispatch fails, and a feedback stays marked when the end of the frame is
refused. -/
theorem failed_frame_effect {e e' : Executor β} {g : LoadedGraph} {state : FrameState}
    {err : RenderError} (he : Executor.Reachable e) (hdisposed : e.disposed = false)
    (hcurrent : e.current = some g) (h : e.frame state = (e', some err)) :
    ∃ k, BreaksDown e g (e.frameState state) k ∧ e'.surfaces = e.surfaces.map k.leaves ∧
      ∀ id b, e.surfaces.get? id = some b → (b.Untouched (k.leaves id b) ↔ k.Spares id b) := by
  have htidied := Executor.tidied_of_reachable he
  suffices hbreaks : ∃ k, BreaksDown e g (e.frameState state) k ∧
      e'.surfaces = e.surfaces.map k.leaves by
    obtain ⟨k, hk, hleaves⟩ := hbreaks
    exact ⟨k, hk, hleaves, fun id b hb => k.untouched_leaves (htidied.surfaces id b hb).2⟩
  cases hbegin : e.submit (.beginFrame (e.frameState state)) with
  | mk e₁ r =>
      have hsurfaces := Executor.surfaces_submit hbegin
      cases r with
      | some r =>
          have he' : e' = e₁ := by
            unfold Executor.frameState at hbegin
            unfold Executor.frame at h
            rw [hdisposed, hcurrent] at h
            dsimp only at h
            rw [hbegin] at h
            exact (congrArg Prod.fst h).symm
          refine ⟨.opening, .opening (congrArg Prod.snd hbegin), Table.ext_get? fun id => ?_⟩
          rw [he', hsurfaces, Table.get?_map]
          exact Option.map_id'.symm
      | none =>
          rw [Executor.frame_eq hdisposed hcurrent hbegin] at h
          have houtcome := groups_outcome g (Frame.opened e₁ g (e.frameState state)) rfl
          have hopened := Drawn.opened e₁ g (e.frameState state)
          rw [hsurfaces] at hopened
          cases hr :
              runList Frame.group (Frame.opened e₁ g (e.frameState state))
                  (Frame.stepGroups g.passes) with
          | mk f r =>
              rw [hr] at houtcome h
              cases r with
              | some err' =>
                  obtain ⟨done, f₁, hdone, hperforms, hstop⟩ := houtcome
                  have hdrawn : Drawn e.surfaces (writes done) f₁ := hopened.performs hperforms
                  have he' : e' = (f.abort err').1 := (congrArg Prod.fst h).symm
                  rcases hstop.next hdone with rfl | ⟨j, u, n, err'', hnext, hfails⟩
                  · refine ⟨_, .between hbegin hdone hperforms hr, ?_⟩
                    rw [he']
                    refine abort_leaves (fun id => ?_) err'
                    simpa using hdrawn.bind [] id
                  · refine ⟨_, .dispatching hbegin hnext hperforms hfails hr, ?_⟩
                    rw [he']
                    exact abort_leaves (hdrawn.fails hfails) err'
              | none =>
                  have hperforms : Performs _ (g.jobs (e.frameState state).env) f := houtcome
                  have hdrawn : Drawn e.surfaces (writes _) f := hopened.performs hperforms
                  have htidy : Tidy f.exec.surfaces := by
                    have hkeeps :=
                      runList_keeps (f := Frame.group) (Frame.Keeps e₁.current) Frame.Keeps.group
                      (Frame.stepGroups g.passes) (Frame.opened e₁ g (e.frameState state))
                      ⟨(Executor.submit_tidied htidied hbegin).surfaces, rfl⟩
                    rw [hr] at hkeeps
                    exact hkeeps.1
                  rcases Frame.finish_fails h with ⟨r, hrefused, he'⟩ | ⟨e₂, hended, hclosing⟩
                  · refine ⟨_, .ending hbegin hr hrefused, ?_⟩
                    have hnone : runList Frame.settle e' [] = (e', none) := rfl
                    exact settled_leaves hdrawn htidy he' (by simp) hnone
                  · have he₂ := Executor.surfaces_submit hended
                    rcases hclosing with ⟨settled, b, rest, e₃, r, hpending, hsettled,
                      hrefused, he'⟩ |
                      ⟨e₃, t, r, hsettled, hshown, hrefused, he'⟩
                    · refine ⟨_, .copying hbegin hr hended hpending hsettled hrefused, ?_⟩
                      rw [he']
                      exact settled_leaves hdrawn htidy he₂ (fun b hb => by simp [hpending, hb])
                        hsettled
                    · refine ⟨_, .presenting hbegin hr hended hsettled hshown hrefused, ?_⟩
                      rw [he']
                      exact settled_leaves hdrawn htidy he₂ (fun _ hb => hb) hsettled

/-- Two passes that write a surface, one of them also a feedback. -/
def trail : Graph where
  passes :=
    [{ id := "a", program := "fill",
       outputs := Table.ofList [("color", "global_o0"), ("mask", "feedback_m")] },
    { id := "b", program := "fill", outputs := Table.ofList [("color", "global_o0")] }]
  programs := Table.ofList [("fill", { wgsl := "fn fill() \x7b\x7d" })]
  textures := Table.ofList [("global_o0", .surface), ("feedback_m", .surface)]
  render := "global_o0"

/-- A renderer with the graph loaded, on a backend that does not end frames. -/
def trailing : Executor Recorder :=
  (Executor.load { backend := (runList Recorder.submit { failures := [(("EndFrame", ""), "lost")] }
    [.init, .resize 64 32]).1, width := 64, height := 32 } trail none).1

/-- The surfaces before the frame, and after it. -/
theorem trailing_facts : trailing.disposed = false ∧ trailing.current.isSome = true ∧
    (trailing.frame {}).2.isSome = true ∧
    trailing.surfaces.keys = ["feedback_m", "global_o0"] ∧
    (trailing.surfaces.get? "global_o0").map (·.read) = some "global_o0#0" ∧
    (trailing.surfaces.get? "feedback_m").map (·.dirty) = some false ∧
    ((trailing.frame {}).1.surfaces.get? "global_o0").map (·.read) = some "global_o0#1" ∧
    ((trailing.frame {}).1.surfaces.get? "feedback_m").map (·.dirty) = some true := by
  decide +kernel

/-- The frame fails at its end, and leaves the surface that was written twice with its
buffers exchanged and the feedback marked. -/
theorem failed_trail_exchanges :
    Executor.Reachable trailing ∧ (trailing.frame {}).2.isSome = true ∧
      (trailing.surfaces.get? "global_o0").map (·.read) = some "global_o0#0" ∧
      (trailing.surfaces.get? "feedback_m").map (·.dirty) = some false ∧
      ((trailing.frame {}).1.surfaces.get? "global_o0").map (·.read) = some "global_o0#1" ∧
      ((trailing.frame {}).1.surfaces.get? "feedback_m").map (·.dirty) = some true ∧
      ∃ k, BreaksDown trailing (trailing.current.getD default) (trailing.frameState {}) k ∧
        ∀ id b, trailing.surfaces.get? id = some b → ¬ k.Spares id b := by
  obtain ⟨hlive, hloaded, hfails, hkeys, hread, hdirty, hafter, hmarked⟩ := trailing_facts
  have hstart : Executor.start ({ failures := [(("EndFrame", ""), "lost")] } : Recorder) 64 32 =
    (_, .ok _) := rfl
  have hreachable : Executor.Reachable trailing := by
    rw [trailing]
    exact .load (.start hstart) trail none
  refine ⟨hreachable, hfails, hread, hdirty, hafter, hmarked, ?_⟩
  obtain ⟨err, herr⟩ := Option.isSome_iff_exists.1 hfails
  have hframe : trailing.frame {} = ((trailing.frame {}).1, some err) := Prod.snd_eq_iff.1 herr
  have hcurrent : trailing.current = some (trailing.current.getD default) := by
    obtain ⟨g, hg⟩ := Option.isSome_iff_exists.1 hloaded
    rw [hg, Option.getD_some]
  obtain ⟨k, hbreaks, hleaves, hspares⟩ :=
    failed_frame_effect hreachable hlive hcurrent hframe
  rw [hleaves, Table.get?_map] at hafter hmarked
  refine ⟨k, hbreaks, fun id b hb hspared => ?_⟩
  obtain ⟨hsame, -, hclean⟩ := (hspares id b hb).2 hspared
  have hid : id ∈ trailing.surfaces.keys := Table.mem_keys_iff.2 (Table.contains_iff.2 ⟨b, hb⟩)
  rw [hkeys, List.mem_pair] at hid
  rcases hid with rfl | rfl
  · simp [hb, hclean] at hmarked
  · rw [hb] at hafter hread
    have hold : b.read = "global_o0#0" := by simpa using hread
    have hnew : (k.leaves "global_o0" b).read = "global_o0#1" := by simpa using hafter
    rw [hsame, hold] at hnew
    exact absurd hnew (by decide)

end EffectChain
