import EffectChain.Proofs.Data.Table
import EffectChain.Proofs.Render.Schedule

/-!
# EffectChain.Proofs.Render.Bindings

What the textures of a pass are bound to.

A texture that is no surface is bound to its slot.  A surface is bound to one of
its two buffers: `bindInputs_get?` says which one is sampled, `bindOutputs_surface`
which one is written, and `commit_surface` and `commit_noted` what is noted after the
dispatch.

A canvas is a backend that takes every call and keeps track of what each texture holds.
A dispatch overwrites each texture it is bound to write with a mark that is used
only once, so a texture that has the mark of a write holds that write and no other.
Every dispatch notes the marks of the textures it samples, every present the mark
of the texture it shows.

* `dispatch_canvas` — what a dispatch of a frame does to the canvas;
* `mark_draw` — what a texture holds after a dispatch.
-/

namespace EffectChain

namespace Frame

variable {β : Type}

/-- The slot of a texture. -/
def slot? (f : Frame β) (id : String) : Option String :=
  (f.current.alloc.slots.get? id).bind (f.current.slots[·]?)

/-- A stored texture is the one in its slot. -/
theorem stored_eq_ok {f : Frame β} {pass id t : String} :
    f.stored pass id = .ok t ↔ f.slot? id = some t := by
  unfold stored slot?
  generalize (f.current.alloc.slots.get? id).bind (f.current.slots[·]?) = slot
  cases slot <;> simp

/-- The buffers of a surface as the next write finds them. -/
def turn (f : Frame β) (id : String) (b : BufferPair) : BufferPair :=
  if !b.isFeedback && f.written.contains id then b.swap else b

/-- The frame with other surfaces. -/
def withSurfaces (f : Frame β) (surfaces : Table BufferPair) : Frame β :=
  { f with exec := { f.exec with surfaces } }

@[simp] theorem surfaces_withSurfaces (f : Frame β) (s : Table BufferPair) :
    (f.withSurfaces s).exec.surfaces = s := rfl

@[simp] theorem slot?_withSurfaces (f : Frame β) (s : Table BufferPair) (id : String) :
    (f.withSurfaces s).slot? id = f.slot? id := rfl

/-! ## one texture -/

theorem bindRead_surface {f : Frame β} {id : String} {b : BufferPair}
    (h : f.exec.surfaces.get? id = some b) (pass : String) :
    f.bindRead pass id = .ok (if b.isFeedback then b.read else f.read.getD id "") := by
  simp [bindRead, h]

theorem bindRead_stored {f : Frame β} {id : String} (h : f.exec.surfaces.get? id = none)
    (pass : String) :
    f.bindRead pass id = f.stored pass id := by
  simp [bindRead, h]

/-- Writing to a surface turns its pair. -/
theorem bindWrite_surface {f : Frame β} {id : String} {b : BufferPair}
    (h : f.exec.surfaces.get? id = some b) (pass : String) :
    f.bindWrite pass id =
      (f.withSurfaces (f.exec.surfaces.insert id (f.turn id b)), .ok (f.turn id b).write) := by
  unfold bindWrite
  rw [h]
  rfl

theorem bindWrite_stored {f : Frame β} {id : String} (h : f.exec.surfaces.get? id = none)
    (pass : String) :
    f.bindWrite pass id = (f, f.stored pass id) := by
  unfold bindWrite
  rw [h]

/-! ## the inputs of a pass -/

/-- Reading several inputs binds each to what it is read from. -/
theorem foldlM_bindRead {f : Frame β} {pass : String} (es : List (String × String))
    (acc r : Table String) (hsorted : es.Pairwise fun a b => a.1 < b.1)
    (h : es.foldlM (fun t (name, id) => (f.bindRead pass id).map (t.insert name)) acc = .ok r)
    (name : String) :
    (∀ id, (name, id) ∈ es → ∃ t, f.bindRead pass id = .ok t ∧ r.get? name = some t) ∧
      ((∀ id, (name, id) ∉ es) → r.get? name = acc.get? name) := by
  induction es generalizing acc with
  | nil =>
      obtain rfl : acc = r := by simpa [pure, Except.pure] using h
      simp
  | cons e es ih =>
      obtain ⟨n, i⟩ := e
      obtain ⟨hlt, hsorted⟩ := List.pairwise_cons.1 hsorted
      rw [List.foldlM_cons] at h
      cases hb : f.bindRead pass i with
      | error err => simp [hb, Except.map, bind, Except.bind] at h
      | ok t =>
          simp only [hb, Except.map, bind, Except.bind] at h
          obtain ⟨hin, hout⟩ := ih (acc.insert n t) hsorted h
          constructor
          · intro id hid
            rcases List.mem_cons.1 hid with heq | hid
            · obtain ⟨rfl, rfl⟩ := Prod.mk.inj heq
              refine ⟨t, hb, ?_⟩
              rw [hout fun a hmem => String.lt_irrefl _ (hlt (_, a) hmem)]
              simp
            · exact hin id hid
          · intro hnot
            rw [hout fun id hid => hnot id (List.mem_cons_of_mem _ hid), Table.get?_insert]
            rw [if_neg fun heq => hnot i (by rw [heq]; exact List.mem_cons_self)]

/-- Every input of a pass is bound to what is read for it. -/
theorem bindInputs_get? {f : Frame β} {pass : String} {inputs r : Table String}
    (h : f.bindInputs pass inputs = .ok r) {name id : String} (hid : inputs.get? name = some id) :
    ∃ t, f.bindRead pass id = .ok t ∧ r.get? name = some t :=
  (foldlM_bindRead inputs.entries {} r inputs.sorted h name).1 id (Table.mem_entries_iff.2 hid)

/-- Nothing else is bound. -/
theorem bindInputs_source {f : Frame β} {pass : String} {inputs r : Table String}
    (h : f.bindInputs pass inputs = .ok r) {name t : String} (ht : r.get? name = some t) :
    ∃ id, inputs.get? name = some id ∧ f.bindRead pass id = .ok t := by
  cases hid : inputs.get? name with
  | none =>
      have hnot : ∀ id, (name, id) ∉ inputs.entries := fun id hmem => by
        simp [Table.mem_entries_iff.1 hmem] at hid
      have hnone := (foldlM_bindRead inputs.entries {} r inputs.sorted h name).2 hnot
      simp [hnone] at ht
  | some id =>
      obtain ⟨u, hread, hget⟩ := bindInputs_get? h hid
      obtain rfl := Option.some.inj (ht.symm.trans hget)
      exact ⟨id, rfl, hread⟩

/-! ## the outputs of a pass -/

/-- What a texture may be bound to when it is written. -/
def Target (f : Frame β) (id t : String) : Prop :=
  match f.exec.surfaces.get? id with
  | some b => t = b.read ∨ t = b.write
  | none => f.slot? id = some t

/-- Turning a pair keeps its two buffers. -/
theorem turn_buffers (f : Frame β) (id : String) (b : BufferPair) (t : String) :
    t = (f.turn id b).read ∨ t = (f.turn id b).write ↔ t = b.read ∨ t = b.write := by
  unfold turn
  split
  · exact or_comm
  · exact Iff.rfl

/-- Binding one output is binding it to a target, and it changes no other target. -/
theorem bindWrite_target {f f' : Frame β} {pass id t : String}
    (h : f.bindWrite pass id = (f', .ok t)) :
    f.Target id t ∧ ∃ s, f' = f.withSurfaces s ∧ ∀ a u, f'.Target a u ↔ f.Target a u := by
  cases hs : f.exec.surfaces.get? id with
  | none =>
      rw [bindWrite_stored hs] at h
      obtain ⟨rfl, hres⟩ := Prod.mk.inj h
      exact ⟨by simpa [Target, hs] using stored_eq_ok.1 hres, f.exec.surfaces, rfl,
        fun a u => Iff.rfl⟩
  | some b =>
      rw [bindWrite_surface hs] at h
      obtain ⟨rfl, hres⟩ := Prod.mk.inj h
      obtain rfl := Except.ok.inj hres
      have htarget : ∀ u, u = (f.turn id b).read ∨ u = (f.turn id b).write ↔ f.Target id u := by
        intro u
        rw [turn_buffers, Target, hs]
      refine ⟨(htarget _).1 (.inr rfl), _, rfl, fun a u => ?_⟩
      by_cases ha : a = id
      · subst ha
        rw [← htarget, Target]
        simp
      · simp [Target, ha]

/-- Outputs are bound one after another. -/
theorem bindOutputs_cons_ok {pass n i : String} {outs : List (String × String)} {f f₁ : Frame β}
    {bound r : Table String} (h : bindOutputs pass f bound ((n, i) :: outs) = (f₁, .ok r)) :
    ∃ f' t, f.bindWrite pass i = (f', .ok t) ∧ bindOutputs pass f' (bound.insert n t) outs =
      (f₁, .ok r) := by
  rw [bindOutputs] at h
  cases hw : f.bindWrite pass i with
  | mk f' res =>
      cases res with
      | error e => simp [hw] at h
      | ok t => exact ⟨f', t, rfl, by rwa [hw] at h⟩

/-- Binding the outputs binds each of them to a target. -/
theorem bindOutputs_target {pass : String} (outs : List (String × String)) (f : Frame β)
    (bound r : Table String) {f₁ : Frame β} (hsorted : outs.Pairwise fun a b => a.1 < b.1)
    (h : bindOutputs pass f bound outs = (f₁, .ok r)) :
    (∃ s, f₁ = f.withSurfaces s) ∧ (∀ a u, f₁.Target a u ↔ f.Target a u) ∧
      ∀ name, (∀ id, (name, id) ∈ outs → ∃ t, f.Target id t ∧ r.get? name = some t) ∧
        ((∀ id, (name, id) ∉ outs) → r.get? name = bound.get? name) := by
  induction outs generalizing f bound with
  | nil =>
      rw [bindOutputs] at h
      obtain ⟨rfl, hres⟩ := Prod.mk.inj h
      obtain rfl := Except.ok.inj hres
      exact ⟨⟨f.exec.surfaces, rfl⟩, fun a u => Iff.rfl, by simp⟩
  | cons o outs ih =>
      obtain ⟨n, i⟩ := o
      obtain ⟨hlt, hsorted⟩ := List.pairwise_cons.1 hsorted
      obtain ⟨f', t, hw, h⟩ := bindOutputs_cons_ok h
      obtain ⟨ht, s, hf', hsame⟩ := bindWrite_target hw
      obtain ⟨⟨s', hf₁⟩, hsame', hview⟩ := ih f' (bound.insert n t) hsorted h
      refine ⟨⟨s', by rw [hf₁, hf']; rfl⟩, fun a u => (hsame' a u).trans (hsame a u),
        fun name => ?_⟩
      obtain ⟨hin, hout⟩ := hview name
      constructor
      · intro id hid
        rcases List.mem_cons.1 hid with heq | hid
        · obtain ⟨rfl, rfl⟩ := Prod.mk.inj heq
          refine ⟨t, ht, ?_⟩
          rw [hout fun a hmem => String.lt_irrefl _ (hlt (_, a) hmem)]
          simp
        · obtain ⟨u, hu, hget⟩ := hin id hid
          exact ⟨u, (hsame id u).1 hu, hget⟩
      · intro hnot
        rw [hout fun a hmem => hnot a (List.mem_cons_of_mem _ hmem), Table.get?_insert]
        rw [if_neg fun heq => hnot i (by rw [heq]; exact List.mem_cons_self)]

/-- What is bound is a target of the output of the same name. -/
theorem bindOutputs_source {pass : String} {f f₁ : Frame β} {outputs r : Table String}
    (h : bindOutputs pass f {} outputs.entries = (f₁, .ok r)) {a t : String}
    (ht : r.get? a = some t) :
    ∃ w, outputs.get? a = some w ∧ f.Target w t := by
  obtain ⟨hin, hout⟩ := (bindOutputs_target _ f _ _ outputs.sorted h).2.2 a
  cases hw : outputs.get? a with
  | none =>
      have hnone := hout fun w hmem => by simp [Table.mem_entries_iff.1 hmem] at hw
      simp [hnone] at ht
  | some w =>
      obtain ⟨u, htarget, hget⟩ := hin w (Table.mem_entries_iff.2 hw)
      obtain rfl := Option.some.inj (ht.symm.trans hget)
      exact ⟨w, rfl, htarget⟩

/-- Binding outputs asks nothing of the backend, whether it succeeds or not. -/
theorem bindOutputs_backend (pass : String) (f : Frame β) (bound : Table String)
    (outs : List (String × String)) :
    (bindOutputs pass f bound outs).1.exec.backend = f.exec.backend := by
  have hone : ∀ (f : Frame β) (id : String), (f.bindWrite pass id).1.exec.backend =
      f.exec.backend := by
    intro f id
    unfold bindWrite
    split <;> rfl
  fun_induction bindOutputs pass f bound outs with
  | case1 f bound => rfl
  | case2 f bound name id rest f' e h =>
      have := hone f id
      rwa [h] at this
  | case3 f bound name id rest f' t h ih =>
      have := hone f id
      rw [h] at this
      exact ih.trans this

/-- Binding outputs adds and removes no surface. -/
theorem bindOutputs_contains (pass : String) (f : Frame β) (bound : Table String)
    (outs : List (String × String)) (id : String) :
    (bindOutputs pass f bound outs).1.exec.surfaces.contains id = f.exec.surfaces.contains id := by
  have hone : ∀ (f : Frame β) (a : String),
      (f.bindWrite pass a).1.exec.surfaces.contains id = f.exec.surfaces.contains id := by
    intro f a
    cases hs : f.exec.surfaces.get? a with
    | none => rw [bindWrite_stored hs]
    | some b =>
        rw [bindWrite_surface hs]
        by_cases hid : id = a
        · subst hid
          simp [Table.contains, hs]
        · simp [hid]
  fun_induction bindOutputs pass f bound outs with
  | case1 f bound => rfl
  | case2 f bound name a rest f' e h =>
      have := hone f a
      rwa [h] at this
  | case3 f bound name a rest f' t h ih =>
      have := hone f a
      rw [h] at this
      exact ih.trans this

/-- Outputs that are not bound leave their surface alone. -/
theorem bindOutputs_unbound {pass : String} (outs : List (String × String)) (f : Frame β)
    (bound r : Table String) {f₁ : Frame β} (h : bindOutputs pass f bound outs = (f₁, .ok r))
    {id : String} (hid : id ∉ outs.map (·.2)) :
    f₁.exec.surfaces.get? id = f.exec.surfaces.get? id := by
  induction outs generalizing f bound with
  | nil =>
      rw [bindOutputs] at h
      rw [(Prod.mk.inj h).1]
  | cons o outs ih =>
      obtain ⟨n, i⟩ := o
      rw [List.map_cons, List.mem_cons, not_or] at hid
      obtain ⟨f', t, hw, h⟩ := bindOutputs_cons_ok h
      rw [ih f' (bound.insert n t) h hid.2]
      cases hs : f.exec.surfaces.get? i with
      | none =>
          rw [bindWrite_stored hs] at hw
          rw [(Prod.mk.inj hw).1]
      | some b =>
          rw [bindWrite_surface hs] at hw
          rw [← (Prod.mk.inj hw).1]
          simp [hid.1]

/-- A surface that is bound once is written through the buffer it has after the
binding, and the two are turned when it was written before in the frame. -/
theorem bindOutputs_surface {pass : String} (outs : List (String × String)) (f : Frame β)
    (bound r : Table String) {f₁ : Frame β} (hsorted : outs.Pairwise fun a b => a.1 < b.1)
    (honce : outs.Pairwise fun a b => a.2 = b.2 → f.exec.surfaces.get? a.2 = none)
    (h : bindOutputs pass f bound outs = (f₁, .ok r)) {name id : String} {b : BufferPair}
    (hid : (name, id) ∈ outs) (hb : f.exec.surfaces.get? id = some b) :
    r.get? name = some (f.turn id b).write ∧ f₁.exec.surfaces.get? id = some (f.turn id b) := by
  induction outs generalizing f bound with
  | nil => simp at hid
  | cons o outs ih =>
      obtain ⟨n, i⟩ := o
      obtain ⟨hlt, hrest⟩ := List.pairwise_cons.1 hsorted
      obtain ⟨hfirst, honce'⟩ := List.pairwise_cons.1 honce
      obtain ⟨f', t, hw, h⟩ := bindOutputs_cons_ok h
      rcases List.mem_cons.1 hid with heq | htail
      · -- the first output: the others do not touch its surface
        obtain ⟨rfl, rfl⟩ := Prod.mk.inj heq
        rw [bindWrite_surface hb] at hw
        obtain ⟨rfl, hres⟩ := Prod.mk.inj hw
        obtain rfl := Except.ok.inj hres
        have hunbound : id ∉ outs.map (·.2) := by
          intro hmem
          obtain ⟨o, ho, rfl⟩ := List.mem_map.1 hmem
          have := hfirst o ho rfl
          simp [hb] at this
        have hview := (bindOutputs_target outs _ _ r hrest h).2.2 name
        constructor
        · rw [hview.2 fun a hmem => String.lt_irrefl _ (hlt (_, a) hmem)]
          simp
        · rw [bindOutputs_unbound outs _ _ r h hunbound]
          simp
      · have hother : f'.exec.surfaces.get? id = some b ∧ (∀ c, f'.turn id c = f.turn id c) ∧
            ∀ a, f'.exec.surfaces.get? a = none ↔ f.exec.surfaces.get? a = none := by
          cases hs : f.exec.surfaces.get? i with
          | none =>
              rw [bindWrite_stored hs] at hw
              obtain ⟨rfl, -⟩ := Prod.mk.inj hw
              exact ⟨hb, fun _ => rfl, fun _ => Iff.rfl⟩
          | some c =>
              rw [bindWrite_surface hs] at hw
              obtain ⟨rfl, -⟩ := Prod.mk.inj hw
              have hne : id ≠ i := by
                rintro rfl
                have := hfirst _ htail rfl
                simp [hb] at this
              refine ⟨by simp [hne, hb], fun _ => rfl, fun a => ?_⟩
              by_cases ha : a = i <;> simp [ha, hs]
        obtain ⟨hb', hturn, hnone⟩ := hother
        rw [← hturn b]
        exact ih f' _ hrest (honce'.imp fun hab heq => (hnone _).2 (hab heq)) h htail hb'

/-! ## what is noted after a dispatch -/

/-- Committing marks feedback surfaces as dirty and leaves the others. -/
theorem commitOne_surfaces (f : Frame β) (id a : String) :
    (f.commitOne id).exec.surfaces.get? a = (f.exec.surfaces.get? a).map fun b =>
      if a = id ∧ b.isFeedback then { b with dirty := true } else b := by
  unfold commitOne
  cases hs : f.exec.surfaces.get? id with
  | none =>
      by_cases ha : a = id
      · simp [ha, hs]
      · simp [ha]
  | some b =>
      simp only
      by_cases hfb : b.isFeedback
      · by_cases ha : a = id
        · subst ha
          simp [hfb, hs]
        · simp [hfb, ha]
      · by_cases ha : a = id
        · subst ha
          simp [hfb, hs]
        · simp [hfb, ha]

/-- A feedback that was written is marked, all else about surfaces stays. -/
theorem commit_surface (f : Frame β) (outputs : Table String) (id : String) :
    (f.commit outputs).exec.surfaces.get? id = (f.exec.surfaces.get? id).map fun b =>
      if id ∈ outputs.values ∧ b.isFeedback then { b with dirty := true } else b := by
  unfold commit
  induction outputs.values generalizing f with
  | nil => simp
  | cons a as ih =>
      rw [List.foldl_cons, ih, commitOne_surfaces, Option.map_map]
      congr 1
      funext b
      have hkeep : ∀ c : BufferPair, ({ c with dirty := true } : BufferPair).isFeedback =
          c.isFeedback :=
        fun _ => rfl
      by_cases ha : id = a <;> by_cases hfb : b.isFeedback <;> by_cases hm : id ∈ as <;>
        simp [ha, hfb, hm, hkeep]

/-- Committing notes what was written to a surface that is no feedback. -/
theorem commitOne_noted {f : Frame β} {id : String} {b : BufferPair}
    (hb : f.exec.surfaces.get? id = some b) (hfb : b.isFeedback = false) (a : String) :
    (f.commitOne a).read.get? id = (if id = a then some b.write else f.read.get? id) ∧
      (f.commitOne a).written.contains id = (decide (id = a) || f.written.contains id) := by
  unfold commitOne
  by_cases ha : id = a
  · subst ha
    simp [hb, hfb]
  · cases hs : f.exec.surfaces.get? a with
    | none => simp [ha]
    | some c =>
        by_cases hc : c.isFeedback <;> simp [hc, ha]

/-- A surface that was written is read from where it was written. -/
theorem commit_noted (outputs : Table String) {f : Frame β} {id : String} {b : BufferPair}
    (hb : f.exec.surfaces.get? id = some b) (hfb : b.isFeedback = false) :
    (f.commit outputs).read.get? id =
      (if id ∈ outputs.values then some b.write else f.read.get? id) ∧
      (f.commit outputs).written.contains id =
        (decide (id ∈ outputs.values) || f.written.contains id) := by
  unfold commit
  induction outputs.values generalizing f with
  | nil => simp
  | cons a as ih =>
      obtain ⟨hread, hwritten⟩ := commitOne_noted hb hfb a
      have hb' : (f.commitOne a).exec.surfaces.get? id = some b := by
        rw [commitOne_surfaces, hb]
        simp [hfb]
      obtain ⟨ihread, ihwritten⟩ := ih hb'
      rw [List.foldl_cons, ihread, ihwritten, hread, hwritten]
      by_cases ha : id = a <;> by_cases hm : id ∈ as <;> simp [ha, hm]

/-- A feedback never counts as written. -/
theorem commit_feedback (outputs : Table String) {f : Frame β} {id : String} {b : BufferPair}
    (hb : f.exec.surfaces.get? id = some b) (hfb : b.isFeedback = true) :
    (f.commit outputs).written.contains id = f.written.contains id := by
  unfold commit
  induction outputs.values generalizing f b with
  | nil => rfl
  | cons a as ih =>
      have hb' : ∃ b', (f.commitOne a).exec.surfaces.get? id = some b' ∧ b'.isFeedback = true := by
        rw [commitOne_surfaces, hb]
        by_cases ha : id = a
        · exact ⟨{ b with dirty := true }, by simp [ha, hfb], hfb⟩
        · exact ⟨b, by simp [ha], hfb⟩
      obtain ⟨b', hb', hfb'⟩ := hb'
      rw [List.foldl_cons, ih hb' hfb']
      unfold commitOne
      cases hs : f.exec.surfaces.get? a with
      | none => rfl
      | some c =>
          by_cases hc : c.isFeedback
          · simp [hc]
          · have hne : id ≠ a := by
              rintro rfl
              rw [hb] at hs
              rw [← Option.some.inj hs] at hc
              exact hc hfb
            simp [hc, hne]

end Frame

/-! ## marks -/

/-- What a texture holds: nothing, or what the dispatch with the given number wrote
through one of its attachments. -/
inductive Mark where
  | blank
  | paint (serial : Nat) (attachment : String)
  deriving DecidableEq, Repr, Inhabited

/-- What can be seen of a run: the marks a pass samples under the names of its
inputs, and the mark that is shown. -/
inductive Shot where
  | drawn (pass : String) (samples : Table Mark)
  | shown (mark : Mark)
  deriving DecidableEq, Repr

/-- The attachments that are bound to a texture, in increasing order. -/
def attachments (outputs : List (String × String)) (id : String) : List String :=
  (outputs.filter (·.2 = id)).map (·.1)

/-- What a texture holds after a dispatch, when the dispatch writes it: of several
attachments the last one is seen. -/
def painted? (serial : Nat) (outputs : Table String) (id : String) : Option Mark :=
  (attachments outputs.entries id).getLast?.map (.paint serial)

/-- Marks by texture. -/
structure Canvas where
  contents : Table Mark := {}
  /-- The number of the next dispatch. -/
  serial : Nat := 0
  shots : List Shot := []

namespace Canvas

/-- What a texture holds. -/
def mark (c : Canvas) (id : String) : Mark := c.contents.getD id .blank

/-- Samples the inputs, then overwrites the outputs. -/
def draw (c : Canvas) (d : Dispatch) : Canvas where
  contents := d.outputs.entries.foldl (fun t o => t.insert o.2 (.paint c.serial o.1)) c.contents
  serial := c.serial + 1
  shots := c.shots ++ [.drawn d.pass (d.inputs.map fun _ id => c.mark id)]

/-- Sets what a texture holds. -/
def put (c : Canvas) (id : String) (m : Mark) : Canvas :=
  { c with contents := c.contents.insert id m }

def submit (c : Canvas) : Request → Canvas
  | .createTexture id _ => c.put id .blank
  | .destroyTexture id => { c with contents := c.contents.erase id }
  | .executePass d _ => c.draw d
  | .copyTexture source target => c.put target (c.mark source)
  | .present id => { c with shots := c.shots ++ [.shown (c.mark id)] }
  | _ => c

instance : Backend Canvas := ⟨fun c r => (c.submit r, none)⟩

/-! ## what a texture holds after a call -/

@[simp] theorem mark_put (c : Canvas) (id a : String) (m : Mark) :
    (c.put id m).mark a = if a = id then m else c.mark a :=
  Table.getD_insert _ _ _ _ _

/-- A dispatch changes the textures it writes, and no others. -/
theorem mark_draw (c : Canvas) (d : Dispatch) (id : String) :
    (c.draw d).mark id = (painted? c.serial d.outputs id).getD (c.mark id) := by
  unfold mark draw painted?
  generalize d.outputs.entries = outs
  generalize c.contents = contents
  simp only
  induction outs generalizing contents with
  | nil => rfl
  | cons o outs ih =>
      rw [List.foldl_cons, ih, Table.getD_insert]
      by_cases h : id = o.2
      · subst h
        simp [attachments, List.getLast?_cons, Function.comp_def]
      · have hne : ¬ o.2 = id := fun heq => h heq.symm
        simp [attachments, h, hne]

end Canvas

/-! ## attachments -/

theorem mem_attachments {t : Table String} {id a : String} :
    a ∈ attachments t.entries id ↔ t.get? a = some id := by
  simp [attachments, ← Table.mem_entries_iff]

theorem attachments_pairwise (t : Table String) (id : String) :
    (attachments t.entries id).Pairwise (· < ·) := by
  rw [attachments, List.pairwise_map]
  exact t.sorted.filter _

/-- Textures that are bound to the same attachments hold the same after a dispatch. -/
theorem painted?_congr {t u : Table String} {id id' : String}
    (h : ∀ a, t.get? a = some id ↔ u.get? a = some id') (serial : Nat) :
    painted? serial t id = painted? serial u id' := by
  have hsorted : ∀ {l : List String}, l.Pairwise (· < ·) → l.Nodup :=
    fun hl => hl.imp fun hab => String.ne_of_lt hab
  have hperm : (attachments t.entries id).Perm (attachments u.entries id') := by
    refine (List.perm_ext_iff_of_nodup (hsorted (attachments_pairwise t id))
      (hsorted (attachments_pairwise u id'))).2 fun a => ?_
    rw [mem_attachments, mem_attachments, h a]
  have heq : attachments t.entries id = attachments u.entries id' := by
    refine List.Perm.eq_of_pairwise (fun a b _ _ hab hba => ?_) (attachments_pairwise t id)
      (attachments_pairwise u id') hperm
    exact absurd (String.lt_trans hab hba) (String.lt_irrefl _)
  rw [painted?, painted?, heq]

/-- A dispatch writes the textures that are bound to an attachment. -/
theorem painted?_eq_none {serial : Nat} {t : Table String} {id : String} :
    painted? serial t id = none ↔ id ∉ t.values := by
  rw [painted?, Option.map_eq_none_iff, List.getLast?_eq_none_iff, List.eq_nil_iff_forall_not_mem]
  simp only [mem_attachments, Table.mem_values_iff, not_exists]

/-- What is bound to an attachment is painted. -/
theorem painted?_of_mem {t : Table String} {id : String} (h : id ∈ t.values) (serial : Nat) :
    ∃ a, painted? serial t id = some (.paint serial a) := by
  cases hp : painted? serial t id with
  | none => exact absurd h (painted?_eq_none.1 hp)
  | some m =>
      obtain ⟨a, -, rfl⟩ := Option.map_eq_some_iff.1 hp
      exact ⟨a, rfl⟩

/-! ## dispatches of a frame -/

namespace Frame

/-- Committing does not call the backend. -/
theorem commit_backend {β : Type} (f : Frame β) (outputs : Table String) :
    (f.commit outputs).exec.backend = f.exec.backend := by
  unfold commit
  induction outputs.values generalizing f with
  | nil => rfl
  | cons a as ih =>
      rw [List.foldl_cons, ih]
      unfold commitOne
      split
      · rfl
      · split <;> rfl

/-- The frame with another state of the backend. -/
def withBackend {β : Type} (f : Frame β) (backend : β) : Frame β :=
  { f with exec := { f.exec with backend } }

@[simp] theorem backend_withBackend {β : Type} (f : Frame β) (backend : β) :
    (f.withBackend backend).exec.backend = backend := rfl

@[simp] theorem surfaces_withBackend {β : Type} (f : Frame β) (backend : β) :
    (f.withBackend backend).exec.surfaces = f.exec.surfaces := rfl

/-- A dispatch draws with its inputs and outputs bound to stored textures. -/
theorem dispatch_canvas {p : Graph.Pass} {u : Table Datum} {f f' : Frame Canvas} {n : Int}
    (h : dispatch p u f n = (f', none)) :
    ∃ d f₁, f.bindInputs p.id p.inputs = .ok d.inputs ∧
      bindOutputs p.id f {} p.outputs.entries = (f₁, .ok d.outputs) ∧ d.pass = p.id ∧
      f' = (f₁.withBackend (f.exec.backend.draw d)).commit p.outputs := by
  obtain ⟨inputs, f₁, outputs, d, exec, hin, hout, hpass, rfl, rfl, hsub, rfl⟩ := dispatch_none h
  obtain ⟨⟨s, rfl⟩, -⟩ := bindOutputs_target _ f _ _ p.outputs.sorted hout
  refine ⟨d, _, hin, hout, hpass, ?_⟩
  rw [← (Prod.mk.inj hsub).1]
  rfl

/-- Every dispatch takes one serial number. -/
theorem serial_dispatch {p : Graph.Pass} {u : Table Datum} {f f' : Frame Canvas} {n : Int}
    (h : dispatch p u f n = (f', none)) : f'.exec.backend.serial = f.exec.backend.serial + 1 := by
  obtain ⟨d, f₁, -, -, -, rfl⟩ := dispatch_canvas h
  rw [commit_backend]
  rfl

/-- A dispatch that fails draws nothing. -/
theorem dispatch_fails_canvas {p : Graph.Pass} {u : Table Datum} {f f' : Frame Canvas} {n : Int}
    {e : RenderError} (h : dispatch p u f n = (f', some e)) : f'.exec.backend = f.exec.backend := by
  rcases dispatch_some h with rfl | rfl | ⟨b, c, r, hr⟩
  · rfl
  · exact bindOutputs_backend _ _ _ _
  · exact absurd hr (by simp [Backend.submit])

end Frame

/-- A frame on a canvas is never refused. -/
theorem Executor.frame_canvas {e : Executor Canvas} {g : LoadedGraph}
    (hdisposed : e.disposed = false) (hcurrent : e.current = some g) (state : FrameState) :
    e.frame state = Frame.close
      (runList Frame.group (Frame.opened e g (e.frameState state))
        (Frame.stepGroups g.passes)) := by
  have hbegin : e.submit (.beginFrame (e.frameState state)) = (e, none) := rfl
  exact frame_eq hdisposed hcurrent hbegin

end EffectChain
