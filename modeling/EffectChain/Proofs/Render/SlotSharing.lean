import EffectChain.Proofs.Graph.Sharing
import EffectChain.Proofs.Render.Buffers
import EffectChain.Proofs.Render.Bindings

/-!
# EffectChain.Proofs.Render.SlotSharing

When a pass sees what was last written to a texture that lives within a frame.

Textures that share a slot do not meet in the order of the passes, but the passes
of a group run once a round, and in a later round the slot of a texture may hold
what the round before wrote to another texture.  `transient_sample_iff` says that
this is the only way to lose the content of a texture: it is lost exactly in a later
round of a group that has not written the texture again and has written another
texture of the same slot.
-/

namespace EffectChain

/-- What was last written to a texture by dispatches that are numbered from
`serial` on, if every texture has storage of its own. -/
def lastWrite? (serial : Nat) : List Job → String → Option Mark
  | [], _ => none
  | j :: js, id => (lastWrite? (serial + 1) js id).or (painted? serial j.pass.outputs id)

/-- A dispatch finds another texture in the slot of the one it samples: its group is
in a later round, has not written the texture in this round, and has written another
texture of the slot. -/
def Overtaken (alloc : Graph.Allocation) (before : List Job) (job : Job) (id : String) : Prop :=
  0 < job.round ∧
    (∀ a ∈ before, a.group = job.group → a.round = job.round → id ∉ a.pass.outputs.values) ∧
    ∃ b ∈ before, b.group = job.group ∧
      ∃ w ∈ b.pass.outputs.values, w ≠ id ∧ alloc.slots.get? w = alloc.slots.get? id

instance (alloc : Graph.Allocation) (before : List Job) (job : Job) (id : String) :
    Decidable (Overtaken alloc before job id) :=
  inferInstanceAs (Decidable (_ ∧ _ ∧ _))

/-! ## the last write -/

/-- What has no last write was not written. -/
theorem not_written_of_lastWrite? {js : List Job} {serial : Nat} {id : String}
    (h : lastWrite? serial js id = none) : ∀ a ∈ js, id ∉ a.pass.outputs.values := by
  induction js generalizing serial with
  | nil => simp
  | cons j js ih =>
      rw [lastWrite?, Option.or_eq_none_iff] at h
      intro a ha
      rcases List.mem_cons.1 ha with rfl | ha
      · exact painted?_eq_none.1 h.2
      · exact ih h.1 a ha

/-- The last write splits the dispatches at the one that made it. -/
theorem lastWrite?_split {js : List Job} {serial : Nat} {id : String} {m : Mark}
    (h : lastWrite? serial js id = some m) :
    ∃ (earlier : List Job) (j : Job) (later : List Job), js = earlier ++ j :: later ∧
      painted? (serial + earlier.length) j.pass.outputs id = some m ∧
      ∀ a ∈ later, id ∉ a.pass.outputs.values := by
  induction js generalizing serial with
  | nil => simp [lastWrite?] at h
  | cons j js ih =>
      rw [lastWrite?] at h
      cases hrest : lastWrite? (serial + 1) js id with
      | some m' =>
          rw [hrest, Option.some_or] at h
          obtain ⟨earlier, a, later, rfl, hpaint, hlater⟩ := ih (hrest.trans h)
          refine ⟨j :: earlier, a, later, rfl, ?_, hlater⟩
          rw [List.length_cons, ← hpaint]
          congr 1
          omega
      | none =>
          rw [hrest, Option.none_or] at h
          refine ⟨[], j, js, rfl, h, ?_⟩
          exact not_written_of_lastWrite? hrest

/-! ## the content of a slot -/

/-- The frame runs a graph with its own allocation, over tidy surfaces. -/
structure OnOwnSlots {β : Type} (f : Frame β) : Prop where
  tidy : Tidy f.exec.surfaces
  ready : f.current.Ready
  own : f.current.alloc = f.current.graph.allocate

section own

variable {β : Type} {f f' : Frame β} {k : Nat} {t : String}

/-- A texture that lives within a frame is no surface. -/
theorem OnOwnSlots.not_surface (h : OnOwnSlots f) {id : String}
    (hid : Graph.isPersistent id = false) :
    f.exec.surfaces.get? id = none := by
  cases hs : f.exec.surfaces.get? id with
  | none => rfl
  | some b =>
      have := (h.tidy id b hs).1
      simp [hid] at this

/-- A texture is written to a slot exactly when it has been given the slot. -/
theorem OnOwnSlots.target_iff (h : OnOwnSlots f) (ht : f.current.slots[k]? = some t) (id : String) :
    f.Target id t ↔ f.current.alloc.slots.get? id = some k := by
  rw [h.ready.slots] at ht
  unfold Frame.Target
  cases hs : f.exec.surfaces.get? id with
  | some b =>
      obtain ⟨hp, hn⟩ := h.tidy id b hs
      obtain ⟨spec, rfl⟩ := slotIds_get? ht
      constructor
      · intro hbuf
        exact absurd rfl (hn.ne_slot hp hbuf k spec)
      · intro hslot
        rw [h.own] at hslot
        rw [Graph.transient_of_slot _ hslot] at hp
        simp at hp
  | none =>
      dsimp only
      rw [Frame.slot?, h.ready.slots, Option.bind_eq_some_iff]
      constructor
      · rintro ⟨i, hi, hget⟩
        rw [hi, slotIds_inj hget ht]
      · intro hi
        exact ⟨k, hi, ht⟩

/-- A pass touches at most one texture of a slot. -/
theorem OnOwnSlots.alone (h : OnOwnSlots f) {p : Graph.Pass} (hp : p ∈ f.current.graph.passes)
    {v w : String} (hv : v ∈ p.inputs.values ∨ v ∈ p.outputs.values)
    (hw : w ∈ p.inputs.values ∨ w ∈ p.outputs.values) (hvk : f.current.alloc.slots.get? v = some k)
    (hwk : f.current.alloc.slots.get? w = some k) : w = v := by
  by_contra hne
  rw [h.own] at hvk hwk
  obtain ⟨place, hplace⟩ := List.getElem?_of_mem hp
  have htouch : ∀ x, x ∈ p.inputs.values ∨ x ∈ p.outputs.values →
      f.current.graph.allocate.slots.get? x = some k →
          Graph.Touches f.current.graph.passes place x :=
    fun x hx hxk => ⟨p, hplace, Graph.mem_transients.2 ⟨hx, Graph.transient_of_slot _ hxk⟩⟩
  rcases Graph.separate_of_same_slot f.current.graph hne hwk hvk with hsep | hsep
  · exact Nat.lt_irrefl _ (hsep _ _ (htouch w hw hwk) (htouch v hv hvk))
  · exact Nat.lt_irrefl _ (hsep _ _ (htouch v hv hvk) (htouch w hw hwk))

/-- A dispatch keeps frames on their own slots. -/
theorem OnOwnSlots.dispatch [Backend β] (h : OnOwnSlots f) {p : Graph.Pass} {u : Table Datum}
    {n : Int} (hd : Frame.dispatch p u f n = (f', none)) : OnOwnSlots f' := by
  have hkeeps : (Frame.dispatch p u f n).1.Keeps f.exec.current :=
    Frame.Keeps.dispatch p u f n ⟨h.tidy, rfl⟩
  rw [hd] at hkeeps
  have hcurrent : f'.current = f.current := (Frame.dispatch_same hd).current
  exact ⟨hkeeps.1, hcurrent ▸ h.ready, hcurrent ▸ h.own⟩

end own

section slots

variable {f f' : Frame Canvas} {k : Nat} {t : String}

/-- A dispatch writes to a slot through the attachments of the texture in it. -/
theorem OnOwnSlots.painted?_slot (h : OnOwnSlots f) (ht : f.current.slots[k]? = some t)
    {p : Graph.Pass} {outputs : Table String} {f₁ : Frame Canvas}
    (hout : Frame.bindOutputs p.id f {} p.outputs.entries = (f₁, .ok outputs)) {id : String}
    (hid : f.current.alloc.slots.get? id = some k)
    (honly : ∀ w ∈ p.outputs.values, f.current.alloc.slots.get? w = some k → w = id)
    (serial : Nat) :
    painted? serial outputs t = painted? serial p.outputs id := by
  have hview := (Frame.bindOutputs_target _ f _ _ p.outputs.sorted hout).2.2
  refine painted?_congr (fun a => ?_) serial
  cases ha : p.outputs.get? a with
  | none =>
      have hnone := (hview a).2 fun w hw => by
        rw [Table.mem_entries_iff, ha] at hw
        simp at hw
      simp [hnone]
  | some w =>
      obtain ⟨u, hu, hget⟩ := (hview a).1 w (Table.mem_entries_iff.2 ha)
      rw [hget, Option.some.injEq, Option.some.injEq]
      constructor
      · rintro rfl
        exact honly w (Table.mem_values_iff.2 ⟨a, ha⟩) ((h.target_iff ht w).1 hu)
      · rintro rfl
        have hslot := Graph.transient_of_slot _ (h.own ▸ hid)
        have htarget := (h.target_iff ht w).2 hid
        rw [Frame.Target, h.not_surface hslot] at hu htarget
        exact Option.some.inj (hu.symm.trans htarget)

/-- A dispatch that writes no texture of a slot leaves the slot alone. -/
theorem OnOwnSlots.painted?_other (h : OnOwnSlots f) (ht : f.current.slots[k]? = some t)
    {p : Graph.Pass} {outputs : Table String} {f₁ : Frame Canvas}
    (hout : Frame.bindOutputs p.id f {} p.outputs.entries = (f₁, .ok outputs))
    (hnone : ∀ w ∈ p.outputs.values, f.current.alloc.slots.get? w ≠ some k) (serial : Nat) :
    painted? serial outputs t = none := by
  rw [painted?_eq_none, Table.mem_values_iff]
  rintro ⟨a, hget⟩
  obtain ⟨w, ha, hu⟩ := Frame.bindOutputs_source hout hget
  exact hnone w (Table.mem_values_iff.2 ⟨a, ha⟩) ((h.target_iff ht w).1 hu)

/-- What a slot holds after a dispatch. -/
theorem OnOwnSlots.mark_dispatch (h : OnOwnSlots f) (ht : f.current.slots[k]? = some t)
    {p : Graph.Pass} {u : Table Datum} {n : Int} (hd : Frame.dispatch p u f n = (f', none)) :
    (∀ id, f.current.alloc.slots.get? id = some k →
        (∀ w ∈ p.outputs.values, f.current.alloc.slots.get? w = some k → w = id) →
        f'.exec.backend.mark t =
          (painted? f.exec.backend.serial p.outputs id).getD (f.exec.backend.mark t)) ∧
      ((∀ w ∈ p.outputs.values, f.current.alloc.slots.get? w ≠ some k) →
        f'.exec.backend.mark t = f.exec.backend.mark t) := by
  obtain ⟨d, f₁, -, hout, -, rfl⟩ := Frame.dispatch_canvas hd
  rw [Frame.commit_backend, Frame.backend_withBackend, Canvas.mark_draw]
  constructor
  · intro id hid honly
    rw [h.painted?_slot ht hout hid honly]
  · intro hnone
    rw [h.painted?_other ht hout hnone]
    rfl

/-- Jobs take as many serial numbers as there are. -/
theorem serial_performs {js : List Job} (hp : Performs f js f') :
    f'.exec.backend.serial = f.exec.backend.serial + js.length := by
  induction hp with
  | nil f => rfl
  | cons u n first _ ih =>
      rw [ih, Frame.serial_dispatch first, List.length_cons]
      omega

theorem OnOwnSlots.performs {js : List Job} (hp : Performs f js f') (h : OnOwnSlots f) :
    OnOwnSlots f' := by
  induction hp with
  | nil f => exact h
  | cons u n first _ ih => exact ih (h.dispatch first)

/-- Dispatches that write no texture of a slot leave the slot alone. -/
theorem OnOwnSlots.mark_kept {js : List Job} (hp : Performs f js f') (h : OnOwnSlots f)
    (ht : f.current.slots[k]? = some t)
    (hnone : ∀ j ∈ js, ∀ w ∈ j.pass.outputs.values, f.current.alloc.slots.get? w ≠ some k) :
    f'.exec.backend.mark t = f.exec.backend.mark t := by
  induction hp with
  | nil f => rfl
  | @cons f f' f'' j js u n first rest ih =>
      have hsame : f'.current = f.current := (Frame.dispatch_same first).current
      have hone := (h.mark_dispatch ht first).2 (hnone j List.mem_cons_self)
      rw [ih (h.dispatch first) (hsame ▸ ht) fun a ha =>
        hsame ▸ hnone a (List.mem_cons_of_mem j ha), hone]

/-- A slot that is written by some of the dispatches holds what one of them wrote. -/
theorem OnOwnSlots.mark_renewed {js : List Job} (hp : Performs f js f') (h : OnOwnSlots f)
    (ht : f.current.slots[k]? = some t)
    (halone : ∀ j ∈ js, ∀ v ∈ j.pass.outputs.values, ∀ w ∈ j.pass.outputs.values,
      f.current.alloc.slots.get? v = some k → f.current.alloc.slots.get? w = some k → w = v)
    (hsome : ∃ j ∈ js, ∃ w ∈ j.pass.outputs.values, f.current.alloc.slots.get? w = some k) :
    ∃ serial a, f'.exec.backend.mark t = .paint serial a ∧ f.exec.backend.serial ≤ serial := by
  induction hp with
  | nil f => simp at hsome
  | @cons f f' f'' j js u n first rest ih =>
      have hsame : f'.current = f.current := (Frame.dispatch_same first).current
      have h' := h.dispatch first
      have ht' : f'.current.slots[k]? = some t := hsame ▸ ht
      by_cases hlater : ∃ a ∈ js, ∃ w ∈ a.pass.outputs.values, f.current.alloc.slots.get? w = some k
      · obtain ⟨serial, a, hmark, hle⟩ := ih h' ht'
          (fun a ha => hsame ▸ halone a (List.mem_cons_of_mem j ha)) (hsame ▸ hlater)
        rw [Frame.serial_dispatch first] at hle
        exact ⟨serial, a, hmark, by omega⟩
      · -- the first dispatch is the last one to write the slot
        obtain ⟨a, ha, w, hw, hslot⟩ := hsome
        rcases List.mem_cons.1 ha with rfl | ha
        · have hkept := mark_kept rest h' ht' fun b hb v hv hk => hlater ⟨b, hb, v, hv, hsame ▸ hk⟩
          have hmark := (h.mark_dispatch ht first).1 w hslot fun v hv hk =>
            halone a List.mem_cons_self w hw v hv hslot hk
          obtain ⟨b, hb⟩ := painted?_of_mem hw f.exec.backend.serial
          exact ⟨f.exec.backend.serial, b, by rw [hkept, hmark, hb]; rfl, Nat.le_refl _⟩
        · exact absurd ⟨a, ha, w, hw, hslot⟩ hlater

/-- The slot of a texture holds the last write to the texture as long as no other
texture of the slot was written after it. -/
theorem OnOwnSlots.mark_eq_last_iff {js : List Job} {env : Env} (hp : Performs f js f')
    (h : OnOwnSlots f) (hjobs : ∀ j ∈ js, j ∈ f.current.jobs env)
    (ht : f.current.slots[k]? = some t) {id : String} {m : Mark}
    (hid : f.current.alloc.slots.get? id = some k)
    (hlast : lastWrite? f.exec.backend.serial js id = some m) :
    ∃ (earlier : List Job) (j : Job) (later : List Job),
      js = earlier ++ j :: later ∧ id ∈ j.pass.outputs.values ∧
      (∀ a ∈ later, id ∉ a.pass.outputs.values) ∧
      (f'.exec.backend.mark t = m ↔
        ∀ a ∈ later, ∀ w ∈ a.pass.outputs.values, f.current.alloc.slots.get? w ≠ some k) := by
  obtain ⟨earlier, j, later, rfl, hpaint, hlater⟩ := lastWrite?_split hlast
  have hj : j ∈ f.current.jobs env := hjobs j (by simp)
  have hpass : ∀ a ∈ f.current.jobs env, a.pass ∈ f.current.graph.passes :=
    fun a ha => List.mem_of_getElem? (h.ready.pass_of_mem_jobs ha)
  have hwrites : id ∈ j.pass.outputs.values := by
    by_contra hnot
    rw [painted?_eq_none.2 hnot] at hpaint
    simp at hpaint
  refine ⟨earlier, j, later, rfl, hwrites, hlater, ?_⟩
  obtain ⟨f₁, hfirst, hrest⟩ := Performs.split earlier hp
  have hsame₁ : f₁.current = f.current := hfirst.same.current
  have h₁ : OnOwnSlots f₁ := performs hfirst h
  rw [← serial_performs hfirst] at hpaint
  cases hrest with
  | @cons _ f₂ _ _ _ u n hwrite hpost =>
      have hsame₂ : f₂.current = f.current := (Frame.dispatch_same hwrite).current.trans hsame₁
      have h₂ : OnOwnSlots f₂ := h₁.dispatch hwrite
      have hmark : f₂.exec.backend.mark t = m := by
        rw [(h₁.mark_dispatch (hsame₁ ▸ ht) hwrite).1 id (hsame₁ ▸ hid), hpaint]
        · rfl
        · intro w hw hk
          exact h.alone (hpass j hj) (.inr hwrites) (.inr hw) hid (hsame₁ ▸ hk)
      have ht₂ : f₂.current.slots[k]? = some t := hsame₂ ▸ ht
      constructor
      · intro heq a ha w hw hk
        have halone : ∀ a ∈ later, ∀ v ∈ a.pass.outputs.values, ∀ w ∈ a.pass.outputs.values,
            f₂.current.alloc.slots.get? v = some k → f₂.current.alloc.slots.get? w = some k →
                w = v := by
          rw [hsame₂]
          intro a ha v hv w hw hvk hwk
          exact h.alone (hpass a (hjobs a (by simp [ha]))) (.inr hv) (.inr hw) hvk hwk
        obtain ⟨serial, b, hnew, hle⟩ :=
          mark_renewed hpost h₂ ht₂ halone ⟨a, ha, w, hw, hsame₂ ▸ hk⟩
        obtain ⟨c, -, hc⟩ := Option.map_eq_some_iff.1 hpaint
        rw [heq, ← hc] at hnew
        have hserial := (Mark.paint.inj hnew).1
        rw [Frame.serial_dispatch hwrite] at hle
        omega
      · intro hnone
        rw [mark_kept hpost h₂ ht₂ (hsame₂ ▸ hnone), hmark]

end slots

/-! ## rounds -/

section rounds

variable {g : LoadedGraph} {env : Env} {earlier later rest : List Job} {j job : Job} {id : String}
    {k : Nat}

/-- A dispatch that comes strictly between two others is among those between them. -/
theorem mem_between (hjobs : g.jobs env = (earlier ++ j :: later) ++ job :: rest) {c : Job}
    (hc : c ∈ g.jobs env) (hafter : ¬ c.Before j) (hbefore : ¬ job.Before c) : c ∈ later := by
  have hpair := g.jobs_pairwise env
  rw [hjobs] at hpair hc
  obtain ⟨hfront, hback, -⟩ := List.pairwise_append.1 hpair
  obtain ⟨-, -, hcross⟩ := List.pairwise_append.1 hfront
  simp only [List.mem_append, List.mem_cons] at hc
  rcases hc with (hc | rfl | hc) | rfl | hc
  · exact absurd (hcross c hc j List.mem_cons_self) hafter
  · exact absurd (by simp [Job.Before]) hafter
  · exact hc
  · exact absurd (by simp [Job.Before]) hbefore
  · exact absurd ((List.pairwise_cons.1 hback).1 c hc) hbefore

/-- The passes that touch a texture lie on one side of a pass that writes another
texture of its slot. -/
theorem place_side (hready : g.Ready) (hown : g.alloc = g.graph.allocate)
    (hid : g.alloc.slots.get? id = some k) (hj : j ∈ g.jobs env) (hjid : id ∈ j.pass.outputs.values)
    (hjob : job ∈ g.jobs env) (hjobid : id ∈ job.pass.inputs.values) {a : Job} (ha : a ∈ g.jobs env)
    {w : String} (hw : w ∈ a.pass.outputs.values) (hne : w ≠ id)
    (hwk : g.alloc.slots.get? w = some k) :
    (j.place < a.place ∧ job.place < a.place) ∨ (a.place < j.place ∧ a.place < job.place) := by
  rw [hown] at hid hwk
  have hta : Graph.Touches g.graph.passes a.place w :=
    ⟨a.pass, hready.pass_of_mem_jobs ha,
      Graph.mem_transients.2 ⟨.inr hw, Graph.transient_of_slot _ hwk⟩⟩
  have htj : Graph.Touches g.graph.passes j.place id :=
    ⟨j.pass, hready.pass_of_mem_jobs hj,
      Graph.mem_transients.2 ⟨.inr hjid, Graph.transient_of_slot _ hid⟩⟩
  have htjob : Graph.Touches g.graph.passes job.place id :=
    ⟨job.pass, hready.pass_of_mem_jobs hjob,
      Graph.mem_transients.2 ⟨.inl hjobid, Graph.transient_of_slot _ hid⟩⟩
  rcases Graph.separate_of_same_slot g.graph hne hwk hid with hp | hp
  · exact .inr ⟨hp _ _ hta htj, hp _ _ hta htjob⟩
  · exact .inl ⟨hp _ _ htj hta, hp _ _ htjob hta⟩

/-- After the last write to a texture another texture of its slot is written exactly
when the content is lost to a later round. -/
theorem later_write_iff_overtaken (hready : g.Ready) (hown : g.alloc = g.graph.allocate)
    (hjobs : g.jobs env = (earlier ++ j :: later) ++ job :: rest)
    (hid : g.alloc.slots.get? id = some k) (hj : id ∈ j.pass.outputs.values)
    (hlater : ∀ a ∈ later, id ∉ a.pass.outputs.values) (hjob : id ∈ job.pass.inputs.values) :
    (∃ a ∈ later, ∃ w ∈ a.pass.outputs.values, g.alloc.slots.get? w = some k) ↔
      Overtaken g.alloc (earlier ++ j :: later) job id := by
  have hmem : ∀ a ∈ earlier ++ j :: later, a ∈ g.jobs env :=
    fun a ha => hjobs ▸ List.mem_append_left _ ha
  have hjmem : j ∈ g.jobs env := hmem j (by simp)
  have hjobmem : job ∈ g.jobs env := hjobs ▸ (by simp)
  have hpair := g.jobs_pairwise env
  rw [hjobs] at hpair
  obtain ⟨hfront, -, hcross⟩ := List.pairwise_append.1 hpair
  have hjoblast : ∀ a ∈ earlier ++ j :: later, a.Before job :=
    fun a ha => hcross a ha job List.mem_cons_self
  obtain ⟨-, htail, hearlier⟩ := List.pairwise_append.1 hfront
  have hjfirst : ∀ a ∈ later, j.Before a := (List.pairwise_cons.1 htail).1
  constructor
  · rintro ⟨b, hb, w, hw, hwk⟩
    have hne : w ≠ id := fun heq => hlater b hb (heq ▸ hw)
    have hbfront : b ∈ earlier ++ j :: later := by simp [hb]
    have hbmem := hmem b hbfront
    have hjb : j.Before b := hjfirst b hb
    have hbjob : b.Before job := hjoblast b hbfront
    -- the other write is in the group of the dispatch, and in a round after the last write
    have hplace : b.group = job.group ∧
        (b.round < job.round ∨ j.group = b.group ∧ j.round < b.round ∧ b.round ≤ job.round) := by
      rcases place_side hready hown hid hjmem hj hjobmem hjob hbmem hw hne hwk with
        ⟨-, hlt⟩ | ⟨hlt, -⟩
      · have hgroup := LoadedGraph.jobs_place_lt hbmem hjobmem
        unfold Job.Before at hbjob
        omega
      · have hgroup := LoadedGraph.jobs_place_lt hjmem hbmem
        have hjround : j.group = b.group ∧ j.round < b.round := by
          unfold Job.Before at hjb
          omega
        have hsame : ¬ b.group < job.group := by
          intro hlt
          have hc : { j with round := b.round } ∈ g.jobs env :=
            LoadedGraph.jobs_repeat hjmem hbmem hjround.1 (Nat.le_refl _)
          refine hlater _ (mem_between hjobs hc ?_ ?_) hj
          · simp only [Job.Before]
            omega
          · simp only [Job.Before]
            omega
        unfold Job.Before at hbjob
        omega
    refine ⟨by omega, ?_, b, hbfront, hplace.1, w, hw, hne, hwk.trans hid.symm⟩
    intro a ha hgroup hround hwrites
    have ha' : a ∈ earlier ∨ a = j := by
      simp only [List.mem_append, List.mem_cons] at ha
      rcases ha with ha | ha | ha
      · exact .inl ha
      · exact .inr ha
      · exact absurd hwrites (hlater a ha)
    have hab : a.Before b := by
      rcases ha' with ha | rfl
      · exact hearlier a ha b (List.mem_cons_of_mem j hb)
      · exact hjb
    have haj : a.Before j := by
      rcases ha' with ha | rfl
      · exact hearlier a ha j List.mem_cons_self
      · simp [Job.Before]
    unfold Job.Before at hab haj
    omega
  · rintro ⟨hround, hfresh, b, hb, hgroup, w, hw, hne, hwk⟩
    have hbmem := hmem b hb
    have hjjob : j.Before job := hjoblast j (by simp)
    have hjold : ¬ (j.group = job.group ∧ j.round = job.round) :=
      fun h => hfresh j (by simp) h.1 h.2 hj
    unfold Job.Before at hjjob
    rcases place_side hready hown hid hjmem hj hjobmem hjob hbmem hw hne (hwk.trans hid) with
      ⟨hlt, -⟩ | ⟨-, hlt⟩
    · -- the pass comes later: it wrote in the round before
      have hc : { b with round := job.round - 1 } ∈ g.jobs env :=
        LoadedGraph.jobs_repeat hbmem hjobmem hgroup (by omega)
      refine ⟨_, mem_between hjobs hc ?_ ?_, w, hw, hwk.trans hid⟩
      · simp only [Job.Before]
        omega
      · simp only [Job.Before]
        omega
    · -- the pass comes earlier: it has written in this round
      have hc : { b with round := job.round } ∈ g.jobs env :=
        LoadedGraph.jobs_repeat hbmem hjobmem hgroup (Nat.le_refl _)
      refine ⟨_, mem_between hjobs hc ?_ ?_, w, hw, hwk.trans hid⟩
      · simp only [Job.Before]
        omega
      · simp only [Job.Before]
        omega

end rounds

/-! ## what a frame shows -/

section shots

variable {f f' : Frame Canvas} {js : List Job}

/-- Every dispatch notes what the textures hold that its inputs are bound to. -/
theorem shots_performs (hp : Performs f js f') :
    ∃ shots, f'.exec.backend.shots = f.exec.backend.shots ++ shots ∧ shots.length = js.length ∧
      ∀ n job, js[n]? = some job → ∃ f₁ samples, Performs f (js.take n) f₁ ∧
        shots[n]? = some (.drawn job.pass.id samples) ∧
        ∀ name id, job.pass.inputs.get? name = some id →
          ∃ t, f₁.bindRead job.pass.id id = .ok t ∧
          samples.get? name = some (f₁.exec.backend.mark t) := by
  induction hp with
  | nil f => exact ⟨[], by simp, rfl, by simp⟩
  | @cons f f' f'' j js u n first rest ih =>
      obtain ⟨shots, hshots, hlen, hall⟩ := ih
      obtain ⟨d, f₁, hin, -, hpass, hf'⟩ := Frame.dispatch_canvas first
      have hbackend : f'.exec.backend = f.exec.backend.draw d := by
        rw [hf', Frame.commit_backend, Frame.backend_withBackend]
      refine ⟨.drawn j.pass.id (d.inputs.map fun _ t => f.exec.backend.mark t) :: shots, ?_,
        by simp [hlen], ?_⟩
      · rw [hshots, hbackend, Canvas.draw, hpass]
        simp
      · intro n job hjob
        cases n with
        | zero =>
            obtain rfl : j = job := by simpa using hjob
            refine ⟨f, _, .nil f, rfl, fun name id hid => ?_⟩
            obtain ⟨t, hread, hget⟩ := Frame.bindInputs_get? hin hid
            exact ⟨t, hread, by simp [hget]⟩
        | succ n =>
            obtain ⟨f₂, samples, hperf, hshot, hsamples⟩ := hall n job (by simpa using hjob)
            exact ⟨f₂, samples, .cons u _ first hperf, by simpa using hshot, hsamples⟩

theorem abort_shots (f : Frame Canvas) (err : RenderError) :
    (f.abort err).1.backend.shots = f.exec.backend.shots := rfl

/-- The end of a frame shows at most one texture. -/
theorem finish_shots (f : Frame Canvas) :
    ∃ ends, f.finish.1.backend.shots = f.exec.backend.shots ++ ends ∧ ∀ shot ∈ ends, ∃ m,
    shot = .shown m := by
  have hsettle : ∀ (bs : List BufferPair) (e : Executor Canvas),
      ∃ e', runList Frame.settle e bs = (e', none) ∧ e'.backend.shots = e.backend.shots := by
    intro bs
    induction bs with
    | nil => exact fun e => ⟨e, rfl, rfl⟩
    | cons b bs ih =>
        intro e
        obtain ⟨e', hrun, hshots⟩ := ih
          { e with
            backend := e.backend.put b.read (e.backend.mark b.write)
            surfaces := e.surfaces.insert b.id { b with dirty := false } }
        exact ⟨e', hrun, hshots⟩
  have hend : f.exec.submit .endFrame = (f.exec, none) := rfl
  unfold Frame.finish
  rw [hend]
  dsimp only
  obtain ⟨e', hrun, hshots⟩ := hsettle (f.exec.surfaces.values.filter (·.dirty)) f.exec
  rw [hrun]
  dsimp only
  cases f.shown? with
  | none => exact ⟨[], by simp [hshots], by simp⟩
  | some t => exact ⟨[.shown (e'.backend.mark t)], by rw [← hshots]; rfl, by simp⟩

end shots

/-- A frame makes the dispatches of its schedule, the first few when it fails, and shows at
most one texture in the end. -/
theorem frame_performs {e : Executor Canvas} {g : LoadedGraph} (hg : e.current = some g)
    (state : FrameState) :
    ∃ done f ends, done <+: g.jobs (e.frameState state).env ∧
      ((e.frame state).2 = none → done = g.jobs (e.frameState state).env) ∧
      Performs (Frame.opened e g (e.frameState state)) done f ∧
      (e.frame state).1.backend.shots = f.exec.backend.shots ++ ends ∧ ∀ shot ∈ ends, ∃ m,
      shot = .shown m := by
  cases hd : e.disposed with
  | true =>
      have hframe : e.frame state = (e, some .disposed) := by simp [Executor.frame, hd]
      refine ⟨[], Frame.opened e g (e.frameState state), [], List.nil_prefix, by simp [hframe],
        .nil _, ?_, by simp⟩
      rw [hframe, List.append_nil]
      rfl
  | false =>
      have hframe := Executor.frame_canvas hd hg state
      have houtcome := groups_outcome g (Frame.opened e g (e.frameState state)) rfl
      cases hr :
          runList Frame.group (Frame.opened e g (e.frameState state)) (Frame.stepGroups g.passes)
              with
      | mk f r =>
          rw [hr] at houtcome hframe
          cases r with
          | none =>
              obtain ⟨ends, hends, honly⟩ := finish_shots f
              exact ⟨_, f, ends, List.prefix_refl _, fun _ => rfl, houtcome,
                by rw [hframe, Frame.close_none, hends], honly⟩
          | some err =>
              obtain ⟨done, f₁, hpre, hdone, hstop⟩ := houtcome
              have hbackend : f.exec.backend = f₁.exec.backend := by
                rcases hstop with rfl | ⟨p, u, n, e', hd⟩
                · rfl
                · exact Frame.dispatch_fails_canvas hd
              refine ⟨done, f₁, [], hpre, ?_, hdone, ?_, by simp⟩
              · rw [hframe]
                intro hnone
                simp [Frame.abort, Executor.submit, Backend.submit] at hnone
              · rw [hframe, Frame.close_some, abort_shots, hbackend, List.append_nil]

/-- What dispatches of a schedule note of the textures that live within a frame. -/
theorem OnOwnSlots.noted {f f' : Frame Canvas} (h : OnOwnSlots f) {done : List Job} {env : Env}
    (hp : Performs f done f') (hpre : done <+: f.current.jobs env) :
    ∃ shots, f'.exec.backend.shots = f.exec.backend.shots ++ shots ∧ shots.length = done.length ∧
      ∀ n job, done[n]? = some job → ∃ samples, shots[n]? = some (.drawn job.pass.id samples) ∧
        ∀ name id m, job.pass.inputs.get? name = some id → Graph.isPersistent id = false →
          lastWrite? f.exec.backend.serial (done.take n) id = some m →
          (samples.get? name = some m ↔ ¬ Overtaken f.current.alloc (done.take n) job id) := by
  obtain ⟨shots, hshots, hlen, hall⟩ := shots_performs hp
  refine ⟨shots, hshots, hlen, fun n job hjob => ?_⟩
  obtain ⟨f₁, samples, hperf, hshot, hsamples⟩ := hall n job hjob
  refine ⟨samples, hshot, fun name id m hname htransient hlast => ?_⟩
  have hsame : f₁.current = f.current := hperf.same.current
  obtain ⟨t, hread, hsample⟩ := hsamples name id hname
  rw [Frame.bindRead_stored ((performs hperf h).not_surface htransient), Frame.stored_eq_ok,
    Frame.slot?, hsame, Option.bind_eq_some_iff] at hread
  obtain ⟨k, hk, ht⟩ := hread
  -- the schedule around the dispatch
  have hschedule : ∃ rest, f.current.jobs env = done.take n ++ job :: rest := by
    obtain ⟨rest, hrest⟩ := hpre
    obtain ⟨hlt, hget⟩ := List.getElem?_eq_some_iff.1 hjob
    refine ⟨done.drop (n + 1) ++ rest, ?_⟩
    rw [← hrest, ← List.cons_append, ← hget, ← List.drop_eq_getElem_cons hlt, ← List.append_assoc,
      List.take_append_drop]
  obtain ⟨rest, hschedule⟩ := hschedule
  have hjobs : ∀ j ∈ done.take n, j ∈ f.current.jobs env :=
    fun j hj => hschedule ▸ List.mem_append_left _ hj
  obtain ⟨earlier, j, later, hsplit, hwrites, hlater, hmark⟩ :=
    mark_eq_last_iff hperf h hjobs ht hk hlast
  rw [hsplit] at hschedule ⊢
  rw [hsample, Option.some.injEq, hmark,
    ← later_write_iff_overtaken h.ready h.own hschedule hk hwrites hlater
      (Table.mem_values_iff.2 ⟨name, hname⟩)]
  simp only [not_exists, not_and]

/-- When a frame samples a texture that lives within a frame and that it has
written before.  The dispatches of a frame are the first of its schedule, all of
them when it succeeds; each samples what was last written to the texture, as if
every texture had storage of its own, unless the texture was overtaken by another
one of its slot. -/
theorem transient_sample_iff {e : Executor Canvas} (he : e.Reachable) {g : LoadedGraph}
    (hg : e.current = some g) (hown : g.alloc = g.graph.allocate) (state : FrameState) :
    ∃ done shots ends, done <+: g.jobs (e.frameState state).env ∧
      ((e.frame state).2 = none → done = g.jobs (e.frameState state).env) ∧
      (e.frame state).1.backend.shots = e.backend.shots ++ shots ++ ends ∧
      shots.length = done.length ∧ (∀ shot ∈ ends, ∃ m, shot = .shown m) ∧
      ∀ n job, done[n]? = some job → ∃ samples, shots[n]? = some (.drawn job.pass.id samples) ∧
        ∀ name id m, job.pass.inputs.get? name = some id → Graph.isPersistent id = false →
          lastWrite? e.backend.serial (done.take n) id = some m →
          (samples.get? name = some m ↔ ¬ Overtaken g.alloc (done.take n) job id) := by
  have htidied := Executor.tidied_of_reachable he
  have hopen : OnOwnSlots (Frame.opened e g (e.frameState state)) :=
    ⟨htidied.surfaces, htidied.current g hg, hown⟩
  obtain ⟨done, f, ends, hpre, hall, hperforms, hframe, honly⟩ := frame_performs hg state
  obtain ⟨shots, hshots, hlen, hsamples⟩ := hopen.noted hperforms hpre
  refine ⟨done, shots, ends, hpre, hall, ?_, hlen, honly, hsamples⟩
  rw [hframe, hshots]
  rfl

/-! ## a texture that is lost -/

/-- One pass that writes a texture, then a step of two passes that runs twice.  The
first pass of the step samples the texture; the slot is free for the result of the
second one. -/
def relay : Graph where
  passes := [
    { id := "a", outputs := .ofList [("out", "node_0_out")], step := 0 },
    { id := "b", inputs := .ofList [("in", "node_0_out")],
      outputs := .ofList [("out", "node_1_mid")], step := 1, repetition := { count := 2 } },
    { id := "c", inputs := .ofList [("in", "node_1_mid")],
      outputs := .ofList [("out", "node_1_out")], step := 1, repetition := { count := 2 } }]
  programs := .ofList [("", {})]

def relayStart : Executor Canvas := { backend := {}, width := 64, height := 32 }

def relayed : Executor Canvas := (relayStart.load relay none).1

def relayedGraph : LoadedGraph := relayed.current.getD default

def relayJobs : List Job := relayedGraph.jobs (relayed.frameState {}).env

/-- What a frame of the relay comes to, and its job in the second round of the step. -/
theorem relay_facts : (relayStart.load relay none).2 = none ∧ (relayed.frame {}).2 = none ∧
    relayed.backend.shots = [] ∧
    lastWrite? relayed.backend.serial (relayJobs.take 3) "node_0_out" = some (.paint 0 "out") ∧
    relayed.backend.serial = 0 ∧ relayJobs[3]?.isSome = true ∧ 3 < relayJobs.length ∧
    (relayJobs[3]?.getD default).pass.id = "b" ∧
    (relayJobs[3]?.getD default).pass.inputs.get? "in" = some "node_0_out" ∧
    Overtaken relayedGraph.alloc (relayJobs.take 3) (relayJobs[3]?.getD default) "node_0_out" := by
  decide +kernel

/-- In the second round the first pass of the step samples what the second pass
wrote in the first round, and not the texture it is bound to. -/
theorem relay_loses_texture :
    relayed.Reachable ∧ relayed.current = some relayedGraph ∧
      relayedGraph.alloc = relayedGraph.graph.allocate ∧
      lastWrite? 0 (relayJobs.take 3) "node_0_out" = some (.paint 0 "out") ∧
      ∃ samples, (relayed.frame {}).1.backend.shots[3]? = some (.drawn "b" samples) ∧
        samples.get? "in" ≠ some (.paint 0 "out") := by
  obtain ⟨hnone, hended, hbefore, hlast, hserial, hsome, hfour, hid, hinput, hovertaken⟩ :=
    relay_facts
  have hstart : Executor.start ({} : Canvas) 64 32 = ({}, .ok relayStart) := rfl
  -- the renderer is opened by its equation, so that nothing is run again
  have hstate : (relayStart.load relay none).1 = relayed := by rw [relayed]
  have hreach : relayed.Reachable := by
    rw [relayed]
    exact .load (.start hstart) relay none
  obtain ⟨passes, hcurrent⟩ := Executor.load_current (Executor.load_eq hstate hnone)
  have hgraph : relayedGraph = _ := congrArg (Option.getD · default) hcurrent
  have hg : relayed.current = some relayedGraph := by
    rw [hgraph, hcurrent]
    rfl
  have hown : relayedGraph.alloc = relayedGraph.graph.allocate := by
    rw [hgraph]
    rfl
  obtain ⟨done, shots, ends, -, hdone, hshots, hlen, -, hall⟩ :=
    transient_sample_iff hreach hg hown {}
  have hjobs : done = relayJobs := hdone hended
  have hjob : done[3]? = some (relayJobs[3]?.getD default) := by
    obtain ⟨job, hjob⟩ := Option.isSome_iff_exists.1 hsome
    rw [hjobs, hjob, Option.getD_some]
  obtain ⟨samples, hshot, hsamples⟩ := hall 3 _ hjob
  refine ⟨hreach, hg, hown, hserial ▸ hlast, samples, ?_, fun hsame => ?_⟩
  · have hshort : 3 < shots.length := by
      rw [hlen, hjobs]
      exact hfour
    rw [hshots, hbefore, List.nil_append, List.getElem?_append_left hshort, hshot, hid]
  · rw [hjobs] at hsamples
    exact (hsamples "in" "node_0_out" _ hinput (by decide +kernel) hlast).1 hsame hovertaken

end EffectChain
