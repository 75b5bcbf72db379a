import EffectChain.Proofs.Render.Dispatches
import EffectChain.Proofs.Render.SlotSharing
import EffectChain.Proofs.Render.SurfaceStore

/-!
# EffectChain.Proofs.Render.SelfSampling

Whether a dispatch samples a stored texture that it writes.

Within a frame a surface is read from the buffer that was written last, and it is written to
the other one (`UpToDate`): the buffers of a surface that was written change places before it
is written again.  A feedback is read from one buffer and written to the other all through
the frame.  The textures of a pass that live within the frame have slots of their own.  So a
dispatch writes nothing that it samples, unless its pass samples a source that it writes: a
source has one buffer (`UpToDate.apart_iff`).

`samples_apart_iff` says this of every dispatch in a run of the renderer.
-/

namespace EffectChain

/-- The pass samples a texture that it writes. -/
def Graph.Pass.FeedsItself (p : Graph.Pass) (id : String) : Prop :=
  id ∈ p.inputs.values ∧ id ∈ p.outputs.values

/-- No pass samples a texture that it writes and that lives within the frame. -/
def Graph.NoTransientLoop (g : Graph) : Prop :=
  ∀ p ∈ g.passes, ∀ id, Graph.isPersistent id = false → ¬ p.FeedsItself id

/-- What is sampled is not written. -/
def Dispatch.Apart (d : Dispatch) : Prop := ∀ t ∈ d.inputs.values, t ∉ d.outputs.values

/-- The dispatch is one of a pass of the graph, and it keeps what is sampled apart from what is
written unless the pass samples a source that it writes. -/
def Graph.Dispatches (g : Graph) (d : Dispatch) : Prop :=
  ∃ p ∈ g.passes, d.pass = p.id ∧ (d.Apart ↔ ¬ ∃ id, Graph.isSource id = true ∧ p.FeedsItself id)

namespace BufferPair

/-- A source is read from the buffer that it is written to. -/
theorem Named.read_eq_write {id : String} {b : BufferPair} (h : b.Named id)
    (hs : Graph.isSource id = true) :
    b.read = b.write := by
  have hsecond : second id = id ++ "#0" := by simp [second, hs]
  obtain ⟨-, ⟨hr, hw⟩ | ⟨hr, hw⟩⟩ := h <;> rw [hr, hw, hsecond]

end BufferPair

/-! ## one dispatch -/

namespace Frame

variable {β : Type} {f f' : Frame β} {p : Graph.Pass} {d : Dispatch} {id t : String}
    {b : BufferPair}

/-- The frame runs a graph with its own allocation, and every surface that is no feedback is
read from where it was written, if it was. -/
structure UpToDate (f : Frame β) : Prop where
  own : OnOwnSlots f
  reads : ∀ id b, f.exec.surfaces.get? id = some b → b.isFeedback = false →
    f.read.get? id = some (if f.written.contains id then b.write else b.read)

/-- What is sampled for a surface is one of its buffers. -/
theorem UpToDate.sampled (h : f.UpToDate) (hb : f.exec.surfaces.get? id = some b) {pass : String}
    (hread : f.bindRead pass id = .ok t) : t = b.read ∨ t = b.write := by
  rw [bindRead_surface hb] at hread
  obtain rfl := Except.ok.inj hread
  cases hfb : b.isFeedback with
  | true => exact .inl rfl
  | false =>
      rw [if_neg (by simp), Table.getD_of_get? _ (h.reads id b hb hfb)]
      split
      · exact .inr rfl
      · exact .inl rfl

/-- A surface with two buffers is not written where it is sampled. -/
theorem UpToDate.ne_write (h : f.UpToDate) (hb : f.exec.surfaces.get? id = some b)
    (hs : Graph.isSource id = false) {pass : String} (hread : f.bindRead pass id = .ok t) :
    t ≠ (f.turn id b).write := by
  have hne := (h.own.tidy id b hb).2.read_ne_write hs
  rw [bindRead_surface hb] at hread
  obtain rfl := Except.ok.inj hread
  unfold turn
  cases hfb : b.isFeedback with
  | true => simpa using hne
  | false =>
      rw [if_neg (by simp), Table.getD_of_get? _ (h.reads id b hb hfb)]
      cases f.written.contains id with
      | true => exact hne.symm
      | false => exact hne

/-- What a texture that is no surface is bound to is the slot of the texture. -/
theorem stored_slot (hs : f.exec.surfaces.get? id = none) {pass : String}
    (hread : f.bindRead pass id = .ok t) :
    ∃ k, f.current.alloc.slots.get? id = some k ∧ f.current.slots[k]? = some t := by
  rw [bindRead_stored hs, stored_eq_ok, slot?, Option.bind_eq_some_iff] at hread
  exact hread

/-- A source that a pass samples is a surface. -/
theorem surface_of_bindRead (h : OnOwnSlots f) (hid : Graph.isPersistent id = true) {pass : String}
    (hread : f.bindRead pass id = .ok t) : ∃ b, f.exec.surfaces.get? id = some b := by
  cases hs : f.exec.surfaces.get? id with
  | some b => exact ⟨b, rfl⟩
  | none =>
      obtain ⟨k, hk, -⟩ := stored_slot hs hread
      rw [h.own] at hk
      simp [Graph.transient_of_slot _ hk] at hid

/-- A texture that is sampled and written is one that the pass is bound to twice. -/
theorem UpToDate.feedsItself (h : f.UpToDate) (hp : p ∈ f.current.graph.passes) {a n w : String}
    {outputs : Table String} {f₁ : Frame β} (hn : p.inputs.get? n = some id)
    (hread : f.bindRead p.id id = .ok t)
    (hout : bindOutputs p.id f {} p.outputs.entries = (f₁, .ok outputs))
    (ha : outputs.get? a = some t) (hw : p.outputs.get? a = some w) : w = id := by
  cases hs : f.exec.surfaces.get? id with
  | some b =>
      have howner := bound_to_surface h.own.tidy h.own.ready hout hs (h.sampled hs hread) ha
      exact Option.some.inj (hw.symm.trans howner)
  | none =>
      obtain ⟨k, hk, hslot⟩ := stored_slot hs hread
      obtain ⟨w', hw', htarget⟩ := bindOutputs_source hout ha
      obtain rfl := Option.some.inj (hw.symm.trans hw')
      exact h.own.alone hp (.inl (Table.mem_values_iff.2 ⟨n, hn⟩))
        (.inr (Table.mem_values_iff.2 ⟨a, hw⟩)) hk
        ((h.own.target_iff hslot w).1 htarget)

/-- A dispatch samples nothing that it writes, unless its pass samples a source that it
writes. -/
theorem UpToDate.apart_iff (h : f.UpToDate) (hp : p ∈ f.current.graph.passes)
    (hone : f.current.graph.OneAttachment) (hloop : f.current.graph.NoTransientLoop)
    (hd : f.Binds p d) :
    d.Apart ↔ ¬ ∃ id, Graph.isSource id = true ∧ p.FeedsItself id := by
  obtain ⟨f₁, hout⟩ := hd.outputs
  constructor
  · rintro hapart ⟨id, hsource, hsampled, hwritten⟩
    have hpersistent : Graph.isPersistent id = true := by simp [Graph.isPersistent, hsource]
    obtain ⟨n, hn⟩ := Table.mem_values_iff.1 hsampled
    obtain ⟨a, ha⟩ := Table.mem_values_iff.1 hwritten
    obtain ⟨t, hread, ht⟩ := bindInputs_get? hd.inputs hn
    obtain ⟨b, hb⟩ := surface_of_bindRead h.own hpersistent hread
    have hsame := (h.own.tidy id b hb).2.read_eq_write hsource
    -- both are bound to the one buffer of the source
    have hbound := (bound_attachment h.own.tidy hout (hone p hp) hb ha).1
    have hbuffer : (f.turn id b).write = t := by
      have hturned := (turn_buffers f id b _).1 (.inr rfl)
      have hsampled := h.sampled hb hread
      rw [← hsame, or_self] at hturned hsampled
      rw [hturned, hsampled]
    exact hapart t (Table.mem_values_iff.2 ⟨n, ht⟩) (Table.mem_values_iff.2 ⟨a, hbuffer ▸ hbound⟩)
  · rintro hnone t hsampled hwritten
    obtain ⟨n, ht⟩ := Table.mem_values_iff.1 hsampled
    obtain ⟨a, ha⟩ := Table.mem_values_iff.1 hwritten
    obtain ⟨id, hn, hread⟩ := bindInputs_source hd.inputs ht
    obtain ⟨w, hw, -⟩ := bindOutputs_source hout ha
    obtain rfl := h.feedsItself hp hn hread hout ha hw
    have hfeeds : p.FeedsItself w :=
      ⟨Table.mem_values_iff.2 ⟨n, hn⟩, Table.mem_values_iff.2 ⟨a, hw⟩⟩
    cases hs : f.exec.surfaces.get? w with
    | some b =>
        have hsource : Graph.isSource w = false := by
          cases hsource : Graph.isSource w with
          | true => exact absurd ⟨w, hsource, hfeeds⟩ hnone
          | false => rfl
        have hbound := (bound_attachment h.own.tidy hout (hone p hp) hs hw).1
        exact h.ne_write hs hsource hread (Option.some.inj (ha.symm.trans hbound))
    | none =>
        obtain ⟨k, hk, -⟩ := stored_slot hs hread
        rw [h.own.own] at hk
        exact hloop p hp w (Graph.transient_of_slot _ hk) hfeeds

/-- A frame starts up to date. -/
theorem upToDate_opened {e : Executor β} {g : LoadedGraph} (htidied : e.Tidied) (hg : g.Ready)
    (hown : g.alloc = g.graph.allocate) (state : FrameState) :
    (Frame.opened e g state).UpToDate where
  own := ⟨htidied.surfaces, hg, hown⟩
  reads := by
    intro id b hb _
    have hb : e.surfaces.get? id = some b := hb
    simp [Frame.opened, hb]

variable [Backend β]

/-- A surface that was written is read from where it was written. -/
theorem UpToDate.dispatch (h : f.UpToDate) {u : Table Datum} {n : Int}
    (hd : Frame.dispatch p u f n = (f', none)) :
    f'.UpToDate := by
  refine ⟨h.own.dispatch hd, fun id b hb hfb => ?_⟩
  obtain ⟨inputs, f₁, outputs, d, exec, -, hout, -, -, -, hsub, rfl⟩ := dispatch_none hd
  obtain ⟨⟨s, hs⟩, -⟩ := bindOutputs_target _ f _ _ p.outputs.sorted hout
  have hexec : exec.surfaces = f₁.exec.surfaces := Executor.surfaces_submit hsub
  rw [commit_surface, Option.map_eq_some_iff] at hb
  obtain ⟨b₁, hb₁, rfl⟩ := hb
  have hfb₁ : b₁.isFeedback = false := by
    split at hfb <;> exact hfb
  obtain ⟨hread, hwritten⟩ := commit_noted p.outputs hb₁ hfb₁
  rw [hread, hwritten,
    if_neg (show ¬ (id ∈ p.outputs.values ∧ b₁.isFeedback = true) by simp [hfb₁])]
  by_cases hid : id ∈ p.outputs.values
  · simp [hid]
  · have hkept : f.exec.surfaces.get? id = some b₁ := by
      rw [← bindOutputs_unbound _ f _ _ hout hid, ← hexec]
      exact hb₁
    have hbefore := h.reads id b₁ hkept hfb₁
    simp [hid, hs, withSurfaces, hbefore]

end Frame

/-- The dispatches of a frame are dispatches of the graph that runs. -/
theorem Executor.frame_adds {β : Type} [Backend β] {e : Executor (Scribe β)} {g : LoadedGraph}
    (htidied : e.Tidied) (hcurrent : e.current = some g) (hown : g.alloc = g.graph.allocate)
    (hone : g.graph.OneAttachment) (hloop : g.graph.NoTransientLoop) (state : FrameState) :
    Adds g.graph.Dispatches e (e.frame state).1 := by
  have hready := htidied.current g hcurrent
  refine frame_dispatches (I := Frame.UpToDate) hcurrent hready state (fun hbegin => ?_)
    (fun hf hd => hf.dispatch hd) ?_
  · exact Frame.upToDate_opened (submit_tidied htidied hbegin) hready hown (e.frameState state)
  · rintro f p d hf rfl - hp hd
    exact ⟨p, hp, hd.pass, hf.apart_iff hp hone hloop hd.toBinds⟩

/-! ## runs -/

/-- Every dispatch among the exchanges is one of the graphs. -/
def Dispatched (gs : List Graph) (xs : List Exchange) : Prop :=
  ∀ d state answer, (.executePass d state, answer) ∈ xs → ∃ g ∈ gs, g.Dispatches d

theorem Dispatched.append {gs : List Graph} {xs ys : List Exchange} (h : Dispatched gs xs)
    (h' : Dispatched gs ys) :
    Dispatched gs (xs ++ ys) :=
  fun d state answer hmem => (List.mem_append.1 hmem).elim (h d state answer) (h' d state answer)

/-- What is dispatched for some graphs is dispatched for more. -/
theorem Dispatched.mono {gs gs' : List Graph} {xs : List Exchange} (h : Dispatched gs xs)
    (hmore : ∀ g ∈ gs, g ∈ gs') : Dispatched gs' xs := by
  intro d state answer hmem
  obtain ⟨g, hg, hd⟩ := h d state answer hmem
  exact ⟨g, hmore g hg, hd⟩

namespace Executor

variable {β : Type} [Backend β] {e₀ e : Executor (Scribe β)} {gs : List Graph}

/-- The renderers that are reached from one that was given a graph with its own allocation, with
the graphs that they were given since then, each with its own allocation.  Whatever was done
before, and what the backend behind refuses may change between two calls. -/
inductive Since (e₀ : Executor (Scribe β)) : Executor (Scribe β) → List Graph → Prop
  | loaded {e : Executor (Scribe β)} {n : Nat} {g : Graph} (h : Logged e n)
      (hload : e.load g (some g.allocate) = (e₀, none)) : Since e₀ e₀ [g]
  | backend {e : Executor (Scribe β)} {gs : List Graph} (h : Since e₀ e gs) (b : β) :
      Since e₀ { e with backend := { e.backend with inner := b } } gs
  | load {e : Executor (Scribe β)} {gs : List Graph} (h : Since e₀ e gs) (g : Graph) :
      Since e₀ (e.load g (some g.allocate)).1 (g :: gs)
  | frame {e : Executor (Scribe β)} {gs : List Graph} (h : Since e₀ e gs) (state : FrameState) :
      Since e₀ (e.frame state).1 gs
  | resize {e : Executor (Scribe β)} {gs : List Graph} (h : Since e₀ e gs) (width height : Int) :
      Since e₀ (e.resize width height).1 gs
  | dispose {e : Executor (Scribe β)} {gs : List Graph} (h : Since e₀ e gs) : Since e₀
      e.dispose.1 gs

/-- What holds of a run after every call: the graph that runs was given with its allocation, and
every dispatch since the start is one of a graph that was given. -/
structure KeptSince (e₀ e : Executor (Scribe β)) (gs : List Graph) : Prop where
  tidied : e.Tidied
  current : ∀ g, e.current = some g → g.graph ∈ gs ∧ g.alloc = g.graph.allocate
  log : ∃ xs, e.backend.log = e₀.backend.log ++ xs ∧ Dispatched gs xs

/-- A frame leaves the graph that runs. -/
theorem sameCurrent_carried : Carried (β := β) fun e e' => e'.current = e.current where
  refl _ := rfl
  trans h h' := h'.trans h
  submit _ _ _ := rfl
  surfaces _ _ _ := rfl
  frames _ _ := rfl

omit [Backend β] in
/-- A call outside of frames dispatches nothing. -/
theorem KeptSince.outside {e' : Executor (Scribe β)} {gs' : List Graph} (h : KeptSince e₀ e gs)
    (hout : Outside e e') (htidied : e'.Tidied) (hmore : ∀ g ∈ gs, g ∈ gs')
    (hcurrent : ∀ g, e'.current = some g → g.graph ∈ gs' ∧ g.alloc = g.graph.allocate) :
    KeptSince e₀ e' gs' := by
  obtain ⟨xs, hlog, hxs⟩ := h.log
  obtain ⟨ys, hlogs, hys⟩ := hout
  have hnone : Dispatched gs' ys := fun d state answer hmem => absurd trivial (hys _ hmem)
  exact ⟨htidied, hcurrent, xs ++ ys, by rw [hlogs.log, hlog, List.append_assoc],
    (hxs.mono hmore).append hnone⟩

/-- A load keeps the account. -/
theorem KeptSince.load (h : KeptSince e₀ e gs) (g : Graph) :
    KeptSince e₀ (e.load g (some g.allocate)).1 (g :: gs) := by
  refine h.outside (load_outside e g _) (load_tidied h.tidied g _)
    (fun g hg => List.mem_cons_of_mem _ hg)
    fun g' hg' => ?_
  cases hload : e.load g (some g.allocate) with
  | mk e' r =>
      rw [hload] at hg'
      cases r with
      | none =>
          obtain ⟨passes, hcurrent⟩ := load_current hload
          obtain rfl := Option.some.inj (hg'.symm.trans hcurrent)
          exact ⟨List.mem_cons_self, rfl⟩
      | some err =>
          obtain ⟨hmem, hown⟩ := h.current g' ((load_refused_scene hload).2 ▸ hg')
          exact ⟨List.mem_cons_of_mem _ hmem, hown⟩

/-- A frame keeps the account. -/
theorem KeptSince.frame (h : KeptSince e₀ e gs) (hone : ∀ g ∈ gs, g.OneAttachment)
    (hloop : ∀ g ∈ gs, g.NoTransientLoop) (state : FrameState) :
    KeptSince e₀ (e.frame state).1 gs := by
  refine ⟨frame_tidied h.tidied state, fun g hg => h.current g ?_, ?_⟩
  · rwa [sameCurrent_carried.frame e state] at hg
  · obtain ⟨xs, hlog, hxs⟩ := h.log
    cases hcurrent : e.current with
    | none =>
        have hnothing : (e.frame state).1 = e := by
          cases hdisposed : e.disposed <;> simp [Executor.frame, hdisposed, hcurrent]
        exact ⟨xs, by rw [hnothing, hlog], hxs⟩
    | some g =>
        obtain ⟨hg, hown⟩ := h.current g hcurrent
        obtain ⟨ys, hlog', hys⟩ := frame_adds h.tidied hcurrent hown (hone _ hg) (hloop _ hg) state
        have hadded : Dispatched gs ys := fun d st answer hmem =>
          ⟨g.graph, hg, hys d st answer hmem⟩
        exact ⟨xs ++ ys, by rw [hlog', hlog, List.append_assoc], hxs.append hadded⟩

/-- Every run of loads and frames keeps the account. -/
theorem Since.kept (h : e₀.Since e gs) (hone : ∀ g ∈ gs, g.OneAttachment)
    (hloop : ∀ g ∈ gs, g.NoTransientLoop) :
    KeptSince e₀ e gs := by
  induction h with
  | @loaded e n g h hload =>
      have htidied := load_tidied h.kept.tidied g (some g.allocate)
      rw [hload] at htidied
      refine ⟨htidied, fun g' hg' => ?_, [], by simp, fun _ _ _ hmem => absurd hmem (by simp)⟩
      obtain ⟨passes, hcurrent⟩ := load_current hload
      obtain rfl := Option.some.inj (hg'.symm.trans hcurrent)
      exact ⟨List.mem_cons_self, rfl⟩
  | backend h b ih =>
      have hbefore := ih hone hloop
      exact ⟨⟨hbefore.tidied.surfaces, hbefore.tidied.current⟩, hbefore.current, hbefore.log⟩
  | @load e gs h g ih =>
      exact (ih (fun g hg => hone g (List.mem_cons_of_mem _ hg))
        fun g hg => hloop g (List.mem_cons_of_mem _ hg)).load g
  | frame h state ih => exact (ih hone hloop).frame hone hloop state
  | @resize e gs h width height ih =>
      have hbefore := ih hone hloop
      refine hbefore.outside (resize_outside e width height)
        (resize_tidied hbefore.tidied width height)
        (fun _ hg => hg) fun g hg => hbefore.current g ?_
      rwa [(resize_keeps e width height).2.2] at hg
  | @dispose e gs h ih =>
      have hbefore := ih hone hloop
      refine hbefore.outside (dispose_outside e) (dispose_tidied hbefore.tidied) (fun _ hg => hg)
        fun g hg => ?_
      unfold Executor.dispose at hg
      split at hg
      · exact hbefore.current g hg
      · cases hg

end Executor

/-- No dispatch samples a stored texture that it writes, except for sources.  A renderer,
whatever was done to it before, is given graphs with their own allocations, and no pass of
them binds a surface to two attachments or samples a texture that lives within the frame and
that it writes.  Then, through any frames, loads of such graphs, resizes and disposals over a
backend that may refuse any request, every dispatch is one of a pass of such a graph, and what
it samples is apart from what it writes if and only if the pass does not sample a source that
it writes. -/
theorem samples_apart_iff {β : Type} [Backend β] {e₀ e : Executor (Scribe β)} {gs : List Graph}
    (h : e₀.Since e gs) (hone : ∀ g ∈ gs, g.OneAttachment) (hloop : ∀ g ∈ gs, g.NoTransientLoop) :
    ∃ xs, e.backend.log = e₀.backend.log ++ xs ∧ ∀ d state answer,
    (.executePass d state, answer) ∈ xs →
      ∃ g ∈ gs, ∃ p ∈ g.passes, d.pass = p.id ∧
        (d.Apart ↔ ¬ ∃ id, Graph.isSource id = true ∧ p.FeedsItself id) :=
  (h.kept hone hloop).log

/-- A renderer that writes its requests down. -/
def scribing : Executor (Scribe Recorder) :=
  { backend := (runList Scribe.submit ({ inner := {} } : Scribe Recorder) [.init, .resize 64 32]).1
    width := 64, height := 32 }

/-- A graph that is loaded. -/
def showing (g : Graph) : Executor (Scribe Recorder) := (scribing.load g (some g.allocate)).1

theorem showing_since {g : Graph} (h : (scribing.load g (some g.allocate)).2.isNone = true) :
    (showing g).Since (showing g) [g] := by
  have hstart : Executor.start ({ inner := {} } : Scribe Recorder) 64 32 =
    (scribing.backend, .ok scribing) := rfl
  exact .loaded (.start hstart) (Prod.snd_eq_iff.1 (Option.isNone_iff_eq_none.1 h))

/-- Whether there is a dispatch with the given bindings among the exchanges. -/
def hasDispatched (xs : List Exchange) (inputs outputs : Table String) : Bool :=
  xs.any fun x => match x.1 with
    | .executePass d _ => d.inputs = inputs && d.outputs = outputs
    | _ => false

/-- A dispatch that is found stands in the log. -/
theorem exists_of_hasDispatched {xs : List Exchange} {inputs outputs : Table String}
    (h : hasDispatched xs inputs outputs = true) :
    ∃ d state answer, (.executePass d state, answer) ∈ xs ∧ d.inputs = inputs ∧
    d.outputs = outputs := by
  obtain ⟨⟨c, answer⟩, hmem, hx⟩ := List.any_eq_true.1 h
  cases c with
  | executePass d state =>
      simp only [Bool.and_eq_true, decide_eq_true_eq] at hx
      exact ⟨d, state, answer, hmem, hx⟩
  | _ => cases hx

/-- In its second run in a frame the pass samples what its first run wrote, and it writes to
the other buffer. -/
theorem echo_apart : (showing echo).Since ((showing echo).frame {}).1 [echo] ∧ echo.OneAttachment ∧
    echo.NoTransientLoop ∧ ∃ xs d state answer,
      ((showing echo).frame {}).1.backend.log = (showing echo).backend.log ++ xs ∧
      (.executePass d state, answer) ∈ xs ∧
      d.inputs = .ofList [("src", "global_o0#1"), ("old", "feedback_f0#0")] ∧
      d.outputs = .ofList [("color", "global_o0#0"), ("keep", "feedback_f0#1")] ∧ d.Apart := by
  have hsince : (showing echo).Since ((showing echo).frame {}).1 [echo] :=
    .frame (showing_since (by decide +kernel)) {}
  have hinputs : ∀ p ∈ echo.passes, p.inputs.values = ["feedback_f0", "global_o0"] := by
    intro p hp
    obtain rfl := List.mem_singleton.1 hp
    decide +kernel
  have hloop : echo.NoTransientLoop := by
    rintro p hp id htransient ⟨hid, -⟩
    rw [hinputs p hp] at hid
    simp only [List.mem_cons, List.not_mem_nil, or_false] at hid
    rcases hid with rfl | rfl <;> exact absurd htransient (by decide +kernel)
  obtain ⟨xs, hlog, hxs⟩ :=
    samples_apart_iff hsince (by simpa using echo_oneAttachment) (by simpa using hloop)
  have hdispatched : hasDispatched xs (.ofList [("src", "global_o0#1"), ("old", "feedback_f0#0")])
      (.ofList [("color", "global_o0#0"), ("keep", "feedback_f0#1")]) = true := by
    obtain rfl : xs =
        ((showing echo).frame {}).1.backend.log.drop (showing echo).backend.log.length := by
      rw [hlog, List.drop_left]
    decide +kernel
  obtain ⟨d, state, answer, hmem, hin, hout⟩ := exists_of_hasDispatched hdispatched
  refine ⟨hsince, echo_oneAttachment, hloop, xs, d, state, answer, hlog, hmem, hin, hout, ?_⟩
  obtain ⟨g, hg, p, hp, -, hiff⟩ := hxs d state answer hmem
  obtain rfl := List.mem_singleton.1 hg
  refine hiff.2 ?_
  rintro ⟨id, hsource, hid, -⟩
  rw [hinputs p hp] at hid
  simp only [List.mem_cons, List.not_mem_nil, or_false] at hid
  rcases hid with rfl | rfl <;> exact absurd hsource (by decide +kernel)

/-- A pass that samples a source and writes it. -/
def pool : Graph where
  passes :=
    [{ id := "a", inputs := .ofList [("tex", "source_s0")],
       outputs := .ofList [("color", "source_s0")] }]
  programs := .ofList [("", {})]
  textures := .ofList [("source_s0", .surface)]
  render := "source_s0"

/-- The pass binds one texture to one attachment and nothing that lives within the frame, and
its dispatch samples the stored texture that it writes. -/
theorem pool_not_apart : ∃ e₀ e : Executor (Scribe Recorder), e₀.Since e [pool] ∧
    (∀ p ∈ pool.passes, ∀ id a b, p.outputs.get? a = some id → p.outputs.get? b = some id → a = b) ∧
    pool.NoTransientLoop ∧ ∃ xs d state answer, e.backend.log = e₀.backend.log ++ xs ∧
      (.executePass d state, answer) ∈ xs ∧ ¬ d.Apart := by
  have hentries : ∀ p ∈ pool.passes, p.inputs.values = ["source_s0"] ∧
      p.outputs.entries = [("color", "source_s0")] := by
    intro p hp
    obtain rfl := List.mem_singleton.1 hp
    decide +kernel
  have honce : ∀ p ∈ pool.passes, ∀ id a b, p.outputs.get? a = some id →
      p.outputs.get? b = some id → a = b := by
    intro p hp id a b ha hb
    rw [← Table.mem_entries_iff, (hentries p hp).2, List.mem_singleton, Prod.mk.injEq] at ha hb
    rw [ha.1, hb.1]
  have hloop : pool.NoTransientLoop := by
    rintro p hp id htransient ⟨hid, -⟩
    rw [(hentries p hp).1, List.mem_singleton] at hid
    exact absurd htransient (by rw [hid]; decide +kernel)
  have hsince : (showing pool).Since ((showing pool).frame {}).1 [pool] :=
    .frame (showing_since (by decide +kernel)) {}
  have hone : pool.OneAttachment := fun p hp id a b _ => honce p hp id a b
  obtain ⟨xs, hlog, -⟩ := (hsince.kept (by simpa using hone) (by simpa using hloop)).log
  have hdispatched : hasDispatched xs (.ofList [("tex", "source_s0#0")])
      (.ofList [("color", "source_s0#0")]) = true := by
    obtain rfl : xs =
        ((showing pool).frame {}).1.backend.log.drop (showing pool).backend.log.length := by
      rw [hlog, List.drop_left]
    decide +kernel
  obtain ⟨d, state, answer, hmem, hin, hout⟩ := exists_of_hasDispatched hdispatched
  refine ⟨_, _, hsince, honce, hloop, xs, d, state, answer, hlog, hmem, ?_⟩
  · intro hapart
    have hread : "source_s0#0" ∈ d.inputs.values := by
      rw [hin]
      decide +kernel
    have hwrite : "source_s0#0" ∈ d.outputs.values := by
      rw [hout]
      decide +kernel
    exact hapart _ hread hwrite

end EffectChain
