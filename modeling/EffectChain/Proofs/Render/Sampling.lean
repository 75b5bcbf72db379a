import EffectChain.Proofs.Graph.Dataflow
import EffectChain.Proofs.Render.SlotSharing
import EffectChain.Proofs.Render.SurfaceStore

/-!
# EffectChain.Proofs.Render.Sampling

What a pass samples in a frame in which every pass runs once.

Such a frame goes through the passes in their order (`LoadedGraph.jobs_of_once`).  A texture is
sampled as the last pass before left it, unless it is a feedback, which is sampled as it was
when the frame began (`OnOwnSlots.sampled`).  So a pass that takes the result of a step samples
what the maker of the result wrote in this frame, unless the result lies on a feedback or
another pass has written over it (`result_delivered`).
-/

namespace EffectChain

open EffectChain.Graph

/-! ## frames in which every pass runs once -/

/-- All guards hold, no step repeats, and no pass is skipped or runs more than once. -/
def LoadedGraph.Once (g : LoadedGraph) (env : Env) : Prop :=
  ∀ ps ∈ Frame.stepGroups g.passes, groupRounds env ps = 1 ∧ ∀ q ∈ ps, q.runs env = 1

section once

variable {env : Env}

/-- Passes that run once are the jobs of their round. -/
theorem map_pass_roundJobs (group round : Nat) (ps : List LoadedPass) (place : Nat)
    (h : ∀ q ∈ ps, q.runs env = 1) :
    (roundJobs env group round place ps).map (·.pass) = ps.map (·.pass) := by
  induction ps generalizing place with
  | nil => rfl
  | cons q ps ih =>
      obtain ⟨hq, hps⟩ := List.forall_mem_cons.1 h
      rw [roundJobs, hq, List.map_append, ih _ hps]
      rfl

/-- Groups that run once are the jobs of the graph. -/
theorem jobsFrom_of_once (gs : List (List LoadedPass)) (group place : Nat)
    (h : ∀ ps ∈ gs, groupRounds env ps = 1 ∧ ∀ q ∈ ps, q.runs env = 1) :
    (jobsFrom env group place gs).map (·.pass) = gs.flatten.map (·.pass) ∧
      ∀ j ∈ jobsFrom env group place gs, j.round = 0 := by
  induction gs generalizing group place with
  | nil => exact ⟨rfl, by simp [jobsFrom]⟩
  | cons ps gs ih =>
      obtain ⟨⟨hround, hruns⟩, hgs⟩ := List.forall_mem_cons.1 h
      obtain ⟨hpasses, hrounds⟩ := ih (group + 1) (place + ps.length) hgs
      have hgroup : groupJobs env group place ps = roundJobs env group 0 place ps := by
        simp [groupJobs, hround]
      rw [jobsFrom, hgroup]
      refine ⟨by simp [hpasses, map_pass_roundJobs group 0 ps place hruns], fun j hj => ?_⟩
      rcases List.mem_append.1 hj with hj | hj
      · obtain ⟨i, q, -, -, rfl⟩ := mem_roundJobs.1 hj
        rfl
      · exact hrounds j hj

/-- The schedule is the passes of the graph in their order, all in the first round. -/
theorem LoadedGraph.jobs_of_once {g : LoadedGraph} (h : g.Once env) :
    (g.jobs env).map (·.pass) = g.passes.map (·.pass) ∧ ∀ j ∈ g.jobs env, j.round = 0 := by
  have hall := jobsFrom_of_once (Frame.stepGroups g.passes) 0 0 h
  rwa [Frame.stepGroups, List.flatten_splitBy] at hall

end once

/-! ## surfaces that several attachments write -/

/-- The attachments of one more output. -/
theorem attachments_cons (o : String × String) (outs : List (String × String)) (id : String) :
    attachments (o :: outs) id = (if o.2 = id then [o.1] else []) ++ attachments outs id := by
  unfold attachments
  rw [List.filter_cons]
  by_cases h : o.2 = id <;> simp [h]

/-- What is no output has no attachment. -/
theorem attachments_eq_nil {outs : List (String × String)} {id : String} (h : id ∉ outs.map (·.2)) :
    attachments outs id = [] := by
  rw [attachments, List.map_eq_nil_iff, List.filter_eq_nil_iff]
  intro o ho heq
  exact h (List.mem_map.2 ⟨o, ho, by simpa using heq⟩)

/-- The last of some names is the last of a part of them that it is among. -/
theorem getLast?_of_subset {as bs : List String} {a : String} (has : as.Pairwise (· < ·))
    (hbs : bs.Pairwise (· < ·)) (hsub : ∀ c ∈ as, c ∈ bs) (hlast : bs.getLast? = some a)
    (ha : a ∈ as) :
    as.getLast? = some a := by
  obtain ⟨ys, rfl⟩ := List.getLast?_eq_some_iff.1 hlast
  obtain ⟨xs, l, rfl⟩ := List.eq_nil_or_concat as |>.resolve_left (List.ne_nil_of_mem ha)
  rw [List.concat_eq_append] at *
  rcases List.mem_append.1 (hsub l (by simp)) with hl | hl
  · rcases List.mem_append.1 ha with ha | ha
    · have hlt := (List.pairwise_append.1 hbs).2.2 l hl a (List.mem_singleton_self a)
      have hgt := (List.pairwise_append.1 has).2.2 a ha l (List.mem_singleton_self l)
      exact absurd (String.lt_trans hlt hgt) (String.lt_irrefl _)
    · simp [List.mem_singleton.1 ha]
  · simp [List.mem_singleton.1 hl]

namespace Frame

variable {β : Type}

/-- Binding one output leaves a surface as it is or turns it; its own output is bound to the
buffer that is then in front. -/
theorem bindWrite_kept {f f' : Frame β} {pass i t : String} (h : f.bindWrite pass i = (f', .ok t))
    {id : String} {b : BufferPair} (hb : f.exec.surfaces.get? id = some b) :
    ∃ c, f'.exec.surfaces.get? id = some c ∧ (c = b ∨ b.isFeedback = false ∧ c = b.swap) ∧
      (i = id → t = c.write) := by
  by_cases hi : i = id
  · subst hi
    rw [bindWrite_surface hb] at h
    obtain ⟨rfl, hres⟩ := Prod.mk.inj h
    refine ⟨f.turn i b, by simp, ?_, fun _ => (Except.ok.inj hres).symm⟩
    unfold turn
    split
    · next hswap =>
        rw [Bool.and_eq_true, Bool.not_eq_true'] at hswap
        exact .inr ⟨hswap.1, rfl⟩
    · exact .inl rfl
  · refine ⟨b, ?_, .inl rfl, fun heq => absurd heq hi⟩
    have hone : bindOutputs pass f {} [("", i)] = (f', .ok (({} : Table String).insert "" t)) := by
      rw [bindOutputs, h]
      rfl
    rw [bindOutputs_unbound _ f _ _ hone (by simpa using fun heq => hi heq.symm), hb]

/-- A surface that is written is left with the buffer in front that its last attachment is
bound to. -/
theorem bindOutputs_last {pass : String} (outs : List (String × String)) (f : Frame β)
    (bound r : Table String) {f₁ : Frame β} (hsorted : outs.Pairwise fun a b => a.1 < b.1)
    (h : bindOutputs pass f bound outs = (f₁, .ok r)) {id : String} {b : BufferPair}
    (hb : f.exec.surfaces.get? id = some b) (hid : id ∈ outs.map (·.2)) :
    ∃ b' a, f₁.exec.surfaces.get? id = some b' ∧ (b' = b ∨ b.isFeedback = false ∧ b' = b.swap) ∧
      (attachments outs id).getLast? = some a ∧ r.get? a = some b'.write := by
  induction outs generalizing f bound b with
  | nil => simp at hid
  | cons o outs ih =>
      obtain ⟨n, i⟩ := o
      obtain ⟨hlt, hrest⟩ := List.pairwise_cons.1 hsorted
      obtain ⟨f', t, hw, h⟩ := bindOutputs_cons_ok h
      obtain ⟨c, hc, hcb, ht⟩ := bindWrite_kept hw hb
      rw [attachments_cons]
      by_cases hmem : id ∈ outs.map (·.2)
      · obtain ⟨b', a, hb', hswap, hlast, hget⟩ := ih f' _ hrest h hc hmem
        refine ⟨b', a, hb', ?_, by rw [List.getLast?_append, hlast, Option.some_or], hget⟩
        rcases hcb with rfl | ⟨hfb, rfl⟩
        · exact hswap
        · rcases hswap with rfl | ⟨-, rfl⟩
          · exact .inr ⟨hfb, rfl⟩
          · exact .inl rfl
      · have hmem' : id = i ∨ id ∈ outs.map (·.2) := by simpa using hid
        have hi : i = id := (hmem'.resolve_right hmem).symm
        have hview := (bindOutputs_target outs _ _ r hrest h).2.2 n
        refine ⟨c, n, (bindOutputs_unbound outs _ _ r h hmem).trans hc, hcb, ?_, ?_⟩
        · simp [attachments_eq_nil hmem, hi]
        · rw [hview.2 fun a hmem => String.lt_irrefl _ (hlt (_, a) hmem), ht hi]
          simp

/-- A feedback is written through one buffer, by all attachments that write it. -/
theorem bindOutputs_feedback {pass : String} (outs : List (String × String)) (f : Frame β)
    (bound r : Table String) {f₁ : Frame β} (hsorted : outs.Pairwise fun a b => a.1 < b.1)
    (h : bindOutputs pass f bound outs = (f₁, .ok r)) {id : String} {b : BufferPair}
    (hb : f.exec.surfaces.get? id = some b) (hfb : b.isFeedback = true) :
    f₁.exec.surfaces.get? id = some b ∧ ∀ a, (a, id) ∈ outs → r.get? a = some b.write := by
  induction outs generalizing f bound with
  | nil =>
      rw [bindOutputs] at h
      rw [← (Prod.mk.inj h).1]
      exact ⟨hb, by simp⟩
  | cons o outs ih =>
      obtain ⟨n, i⟩ := o
      obtain ⟨hlt, hrest⟩ := List.pairwise_cons.1 hsorted
      obtain ⟨f', t, hw, hnext⟩ := bindOutputs_cons_ok h
      obtain ⟨c, hb', hcb, ht⟩ := bindWrite_kept hw hb
      obtain rfl : c = b := hcb.resolve_right (by simp [hfb])
      obtain ⟨hkept, hall⟩ := ih f' _ hrest hnext hb'
      refine ⟨hkept, fun a ha => ?_⟩
      rcases List.mem_cons.1 ha with heq | ha
      · obtain ⟨rfl, rfl⟩ := Prod.mk.inj heq
        have hview := (bindOutputs_target outs _ _ r hrest hnext).2.2 a
        rw [hview.2 fun c hmem => String.lt_irrefl _ (hlt (_, c) hmem), ← ht rfl]
        simp
      · exact hall a ha

end Frame

/-! ## surfaces through the dispatches of a frame -/

section surfaces

variable {f f' : Frame Canvas} {p : Graph.Pass} {u : Table Datum} {n : Int} {js : List Job}
    {id : String} {m : Mark}

/-- A surface that is no feedback is read from the one of its buffers that holds the mark. -/
def Frame.Shows (f : Frame Canvas) (id : String) (m : Mark) : Prop :=
  ∃ b t, f.exec.surfaces.get? id = some b ∧ b.isFeedback = false ∧ f.read.get? id = some t ∧
    (t = b.read ∨ t = b.write) ∧ f.exec.backend.mark t = m

/-- A feedback is read from the buffer that holds the mark. -/
def Frame.Recalls (f : Frame Canvas) (id : String) (m : Mark) : Prop :=
  ∃ b, f.exec.surfaces.get? id = some b ∧ b.isFeedback = true ∧ f.exec.backend.mark b.read = m

/-- A surface is read from where it was written last. -/
theorem Frame.Shows.dispatch (h : f.Shows id m) (hown : OnOwnSlots f)
    (hd : Frame.dispatch p u f n = (f', none)) :
    f'.Shows id ((painted? f.exec.backend.serial p.outputs id).getD m) := by
  obtain ⟨b, t, hb, hfb, hread, ht, hmark⟩ := h
  by_cases hid : id ∈ p.outputs.values
  · obtain ⟨d, f₁, -, hout, -, rfl⟩ := Frame.dispatch_canvas hd
    obtain ⟨b', a, hb', hbb', hlast, hget⟩ :=
      Frame.bindOutputs_last _ f _ _ p.outputs.sorted hout hb (by simpa [Table.values] using hid)
    have hbuffer : b'.write = b.read ∨ b'.write = b.write := by
      rcases hbb' with rfl | ⟨-, rfl⟩
      · exact .inr rfl
      · exact .inl rfl
    have hfb' : b'.isFeedback = false := by
      rcases hbb' with rfl | ⟨-, rfl⟩ <;> exact hfb
    -- of the attachments of the surface the last one is bound to the buffer in front
    have hpaint : painted? f.exec.backend.serial d.outputs b'.write =
        some (.paint f.exec.backend.serial a) := by
      have hattached :=
        getLast?_of_subset (attachments_pairwise d.outputs b'.write)
          (attachments_pairwise p.outputs id)
        (fun c hc =>
          mem_attachments.2
            (bound_to_surface hown.tidy hown.ready hout hb hbuffer (mem_attachments.1 hc)))
        hlast (mem_attachments.2 hget)
      rw [painted?, hattached]
      rfl
    have hpaint' : painted? f.exec.backend.serial p.outputs id =
        some (.paint f.exec.backend.serial a) := by
      rw [painted?, hlast]
      rfl
    obtain ⟨hnoted, -⟩ :=
      Frame.commit_noted p.outputs (f := f₁.withBackend (f.exec.backend.draw d)) hb' hfb'
    refine ⟨b', b'.write, ?_, hfb', by rw [hnoted, if_pos hid], .inr rfl, ?_⟩
    · rw [Frame.commit_surface, Frame.surfaces_withBackend, hb']
      simp [hfb']
    · rw [Frame.commit_backend, Frame.backend_withBackend, Canvas.mark_draw, hpaint, hpaint']
      rfl
  · obtain ⟨hsurf, hnoted, hkept⟩ := dispatch_unwritten hown.tidy hown.ready hd hb hid
    rw [painted?_eq_none.2 hid]
    exact ⟨b, t, hsurf, hfb, (hnoted hfb).1.trans hread, ht, (hkept t ht).trans hmark⟩

/-- What is written to a feedback is not read in the frame. -/
theorem Frame.Recalls.dispatch (h : f.Recalls id m) (hown : OnOwnSlots f)
    (hd : Frame.dispatch p u f n = (f', none)) : f'.Recalls id m := by
  obtain ⟨b, hb, hfb, hmark⟩ := h
  obtain ⟨d, f₁, -, hout, -, rfl⟩ := Frame.dispatch_canvas hd
  obtain ⟨hb', hwrite⟩ := Frame.bindOutputs_feedback _ f _ _ p.outputs.sorted hout hb hfb
  have hne : b.read ≠ b.write := by
    obtain ⟨-, hn⟩ := hown.tidy id b hb
    exact hn.read_ne_write (feedback_not_source (hn.isFeedback ▸ hfb))
  have hpaint : painted? f.exec.backend.serial d.outputs b.read = none := by
    rw [painted?_eq_none, Table.mem_values_iff]
    rintro ⟨c, hc⟩
    have howner := bound_to_surface hown.tidy hown.ready hout hb (.inl rfl) hc
    exact hne (Option.some.inj (hc.symm.trans (hwrite c (Table.mem_entries_iff.2 howner))))
  refine ⟨_, by rw [Frame.commit_surface, Frame.surfaces_withBackend, hb', Option.map_some], ?_, ?_⟩
  · split <;> exact hfb
  · rw [Frame.commit_backend, Frame.backend_withBackend]
    have hread : (if id ∈ p.outputs.values ∧ b.isFeedback = true then { b with dirty := true }
        else b).read =
        b.read := by
      split <;> rfl
    rw [hread, Canvas.mark_draw, hpaint, Option.getD_none, hmark]

/-- A surface shows what was last written to it. -/
theorem Frame.Shows.performs (hp : Performs f js f') (h : f.Shows id m) (hown : OnOwnSlots f) :
    f'.Shows id ((lastWrite? f.exec.backend.serial js id).getD m) := by
  induction hp generalizing m with
  | nil f => exact h
  | @cons f f' f'' j js u n first _ ih =>
      have hrest := ih (h.dispatch hown first) (hown.dispatch first)
      rw [Frame.serial_dispatch first] at hrest
      rw [lastWrite?]
      cases hlast : lastWrite? (f.exec.backend.serial + 1) js id with
      | none => simpa [hlast] using hrest
      | some m' => simpa [hlast] using hrest

/-- Performing jobs does not change what a feedback surface recalls. -/
theorem Frame.Recalls.performs (hp : Performs f js f') (h : f.Recalls id m) (hown : OnOwnSlots f) :
    f'.Recalls id m := by
  induction hp with
  | nil f => exact h
  | cons u n first _ ih => exact ih (h.dispatch hown first) (hown.dispatch first)

/-- What is shown is what is sampled. -/
theorem Frame.Shows.sample (h : f.Shows id m) {pass t : String}
    (hread : f.bindRead pass id = .ok t) :
    f.exec.backend.mark t = m := by
  obtain ⟨b, t', hb, hfb, hread', -, hmark⟩ := h
  rw [Frame.bindRead_surface hb, hfb, if_neg (by simp), Table.getD_of_get? _ hread'] at hread
  exact Except.ok.inj hread ▸ hmark

/-- What is recalled is what is sampled. -/
theorem Frame.Recalls.sample (h : f.Recalls id m) {pass t : String}
    (hread : f.bindRead pass id = .ok t) :
    f.exec.backend.mark t = m := by
  obtain ⟨b, hb, hfb, hmark⟩ := h
  rw [Frame.bindRead_surface hb, hfb, if_pos rfl] at hread
  exact Except.ok.inj hread ▸ hmark

/-- Performing jobs neither makes nor drops a surface. -/
theorem performs_contains (hp : Performs f js f') (id : String) :
    f'.exec.surfaces.contains id = f.exec.surfaces.contains id := by
  induction hp with
  | nil f => rfl
  | cons u n first _ ih => exact ih.trans (dispatch_contains first id)

/-- What dispatches sample that are all in the first round: a feedback as it was before them,
every other texture as the last dispatch left it that wrote it. -/
theorem OnOwnSlots.sampled (h : OnOwnSlots f)
    (hopen : ∀ id b, f.exec.surfaces.get? id = some b → f.read.get? id = some b.read)
    {done : List Job} {env : Env} (hp : Performs f done f') (hpre : done <+: f.current.jobs env)
    (honce : ∀ j ∈ f.current.jobs env, j.round = 0) :
    ∃ shots, f'.exec.backend.shots = f.exec.backend.shots ++ shots ∧ shots.length = done.length ∧
      ∀ n job, done[n]? = some job → ∃ samples, shots[n]? = some (.drawn job.pass.id samples) ∧
        ∀ name id, job.pass.inputs.get? name = some id →
          (isFeedback id = true → ∃ b, f.exec.surfaces.get? id = some b ∧
            samples.get? name = some (f.exec.backend.mark b.read)) ∧
          (isFeedback id = false → ∀ m, lastWrite? f.exec.backend.serial (done.take n) id = some m →
            samples.get? name = some m) := by
  obtain ⟨shots, hshots, hlen, hall⟩ := shots_performs hp
  obtain ⟨shots', hshots', -, hnoted⟩ := h.noted hp hpre
  obtain rfl := List.append_cancel_left (hshots.symm.trans hshots')
  refine ⟨shots, hshots, hlen, fun n job hjob => ?_⟩
  obtain ⟨f₁, samples, hperf, hshot, hsamples⟩ := hall n job hjob
  obtain ⟨samples', hshot', htransient⟩ := hnoted n job hjob
  obtain ⟨-, rfl⟩ := Shot.drawn.inj (Option.some.inj (hshot.symm.trans hshot'))
  refine ⟨samples, hshot, fun name id hid => ?_⟩
  obtain ⟨t, hread, hsample⟩ := hsamples name id hid
  -- a texture that keeps its content has no slot, so it is a surface
  have hsurface : isPersistent id = true →
      ∃ b, f.exec.surfaces.get? id = some b ∧ b.isFeedback = isFeedback id := by
    intro hpersistent
    cases hb : f.exec.surfaces.get? id with
    | some b => exact ⟨b, rfl, (h.tidy id b hb).2.isFeedback⟩
    | none =>
        have hnone : f₁.exec.surfaces.get? id = none := by
          have hcontains := performs_contains hperf id
          simpa [Table.contains, hb] using hcontains
        rw [Frame.bindRead_stored hnone, Frame.stored_eq_ok, Frame.slot?, hperf.same.current,
          Option.bind_eq_some_iff] at hread
        obtain ⟨k, hk, -⟩ := hread
        rw [h.own] at hk
        simp [transient_of_slot _ hk] at hpersistent
  constructor
  · intro hfb
    obtain ⟨b, hb, hsame⟩ := hsurface (by simp [isPersistent, hfb])
    have hrecalls : f.Recalls id (f.exec.backend.mark b.read) := ⟨b, hb, hsame.trans hfb, rfl⟩
    exact ⟨b, hb, by rw [hsample, (hrecalls.performs hperf h).sample hread]⟩
  · intro hfb m hlast
    cases hpersistent : isPersistent id with
    | true =>
        obtain ⟨b, hb, hsame⟩ := hsurface hpersistent
        have hshows : f.Shows id (f.exec.backend.mark b.read) :=
          ⟨b, b.read, hb, hsame.trans hfb, hopen id b hb, .inl rfl, rfl⟩
        rw [hsample, (hshows.performs hperf h).sample hread, hlast, Option.getD_some]
    | false =>
        refine (htransient name id m hid hpersistent hlast).2 fun hover => ?_
        have hround := honce job (hpre.subset (List.mem_of_getElem? hjob))
        exact Nat.lt_irrefl _ (hround ▸ hover.1)

end surfaces

/-! ## results -/

/-- The dispatches before that of a pass are those of the passes before it. -/
theorem dispatch_of_prefix {before after : List Graph.Pass} {made : Graph.Pass} {done : List Job}
    (hdone : done.map (·.pass) <+: before ++ made :: after) (hk : before.length < done.length) :
    (done.take before.length).map (·.pass) = before ∧
      ∃ job, done[before.length]? = some job ∧ job.pass = made := by
  obtain ⟨rest, hrest⟩ := hdone
  have hk : before.length < (done.map (·.pass)).length := by rwa [List.length_map]
  have htake : (done.map (·.pass) ++ rest).take before.length = (done.map (·.pass)).take
      before.length :=
    List.take_append_of_le_length (Nat.le_of_lt hk)
  have hget : (done.map (·.pass) ++ rest)[before.length]? = (done.map (·.pass))[before.length]? :=
    List.getElem?_append_left hk
  rw [hrest] at htake hget
  constructor
  · rw [List.map_take, ← htake, List.take_left]
  · simpa using hget.symm

/-- The pass at place `j` is the last one before place `k` that writes the texture. -/
structure Graph.LastWriter (passes : List Graph.Pass) (k : Nat) (id : String) (j : Nat)
    (w : Graph.Pass) :
    Prop where
  before : j < k
  pass : passes[j]? = some w
  writes : id ∈ w.outputs.values
  last : ∀ i v, j < i → i < k → passes[i]? = some v → id ∉ v.outputs.values

/-- The last write is by the last pass that writes. -/
theorem lastWriter_of_lastWrite? {passes : List Graph.Pass} {done : List Job}
    (hdone : done.map (·.pass) <+: passes) {k : Nat} (hk : k ≤ done.length) {serial : Nat}
    {id : String} {m : Mark} (h : lastWrite? serial (done.take k) id = some m) :
    ∃ j w, LastWriter passes k id j w ∧ painted? (serial + j) w.outputs id = some m := by
  obtain ⟨earlier, job, later, hsplit, hpaint, hlater⟩ := lastWrite?_split h
  have hlen : k = earlier.length + (later.length + 1) := by
    have := congrArg List.length hsplit
    simpa [Nat.min_eq_left hk] using this
  have hget : ∀ i, i < k → passes[i]? = ((earlier ++ job :: later)[i]?).map (·.pass) := by
    intro i hi
    obtain ⟨rest, rfl⟩ := hdone
    rw [List.getElem?_append_left (by simp; omega), List.getElem?_map, ← hsplit,
      List.getElem?_take_of_lt hi]
  refine ⟨earlier.length, job.pass, ⟨by omega, ?_, ?_, ?_⟩, hpaint⟩
  · rw [hget _ (by omega)]
    simp
  · by_contra hnot
    rw [painted?_eq_none.2 hnot] at hpaint
    cases hpaint
  · intro i v hj hi hv
    rw [hget i hi, List.getElem?_append_right (by omega)] at hv
    obtain ⟨a, ha, rfl⟩ := Option.map_eq_some_iff.1 hv
    obtain ⟨n, hn⟩ : ∃ n, i - earlier.length = n + 1 := ⟨i - earlier.length - 1, by omega⟩
    rw [hn, List.getElem?_cons_succ] at ha
    exact hlater a (List.mem_of_getElem? ha)

/-- What the pass at place `k` samples of a texture where a step has its result: what a pass of
the step was the last to write there.  But a feedback is sampled as it was when the frame
began, and another step may have written over what is in a texture that keeps its content. -/
inductive Delivered (e : Executor Canvas) (passes : List Graph.Pass) (k : Nat) (m : Step)
    (id : String) :
    Option Mark → Prop
  | made {j : Nat} {w : Graph.Pass} (hfb : isFeedback id = false)
      (last : LastWriter passes k id j w)
      (own : w.step = m.temp) : Delivered e passes k m id
        (painted? (e.backend.serial + j) w.outputs id)
  | recalled {b : BufferPair} (hfb : isFeedback id = true) (hb : e.surfaces.get? id = some b) :
      Delivered e passes k m id (some (e.backend.mark b.read))
  | replaced {i j : Nat} {v w : Graph.Pass} (hfb : isFeedback id = false)
      (hpersistent : isPersistent id = true)
      (made : passes[i]? = some v) (own : v.step = m.temp) (writes : id ∈ v.outputs.values)
        (later : i < j)
      (last : LastWriter passes k id j w) (other : w.step ≠ m.temp) :
      Delivered e passes k m id (painted? (e.backend.serial + j) w.outputs id)

/-- Of a texture that is no feedback the last write is delivered. -/
theorem Delivered.of_lastWriter {e : Executor Canvas} {passes : List Graph.Pass} {k j : Nat}
    {m : Step} {id : String} {w : Graph.Pass} (houtputs : ∀ q ∈ passes, ∀ id ∈ q.outputs.values,
      isPersistent id = true ∨ ∃ n : Nat, q.step = n ∧ Private n id)
    (hfb : isFeedback id = false) (hlast : LastWriter passes k id j w)
    (hwrote : Wrote (passes.take k) m id) :
    Delivered e passes k m id (painted? (e.backend.serial + j) w.outputs id) := by
  obtain ⟨v, hv, hstep, hwrites⟩ := hwrote
  obtain ⟨i, hi⟩ := List.getElem?_of_mem hv
  have hbefore : i < k := by
    have := (List.getElem?_eq_some_iff.1 hi).1
    rw [List.length_take] at this
    omega
  rw [List.getElem?_take_of_lt hbefore] at hi
  by_cases hown : w.step = m.temp
  · exact .made hfb hlast hown
  · have hne : i ≠ j := by
      rintro rfl
      exact hown (Option.some.inj (hlast.pass.symm.trans hi) ▸ hstep)
    have hlater : i < j :=
      Nat.lt_of_le_of_ne (Nat.le_of_not_lt fun hlt => hlast.last i v hlt hbefore hi hwrites) hne
    have hpersistent : isPersistent id = true := by
      by_contra htransient
      -- a texture that lives within the frame belongs to one step
      obtain ⟨n, hvn, hprivate⟩ :=
        (houtputs v (List.mem_of_getElem? hi) id hwrites).resolve_left htransient
      obtain ⟨n', hwn, hprivate'⟩ :=
        (houtputs w (List.mem_of_getElem? hlast.pass) id hlast.writes).resolve_left htransient
      exact hown (by rw [hwn, hprivate'.inj hprivate, ← hvn, hstep])
    exact .replaced hfb hpersistent hi hstep hwrites hlater hlast hown

/-- What the dispatches of a frame show of the dataflow of a plan.  Every pass of a step has its
place in the graph, and it is dispatched at this place.  If it takes the result of a step, it is
bound to the texture where the maker of the result holds it, and samples what was delivered
there. -/
def Plan.Delivers (p : Plan) (lookup : String → Option Descriptor) (e : Executor Canvas) (g : Graph)
    (shots : List Shot) : Prop :=
  ∀ s ∈ p.steps, ∃ d, lookup s.op = some d ∧ ∀ i q, d.passes[i]? = some q →
    ∃ k made, g.passes[k]? = some made ∧ made.id = passId s i ∧
      (k < shots.length → ∃ samples, shots[k]? = some (.drawn made.id samples) ∧
        ∀ binding name c t, q.inputs.get? binding = some name → s.TakesResult d name c t →
          ∃ id m, made.inputs.get? binding = some id ∧ p.Maker lookup c t m ∧ m.Holds id c ∧
            (s.source = some t → m.out = none) ∧ Delivered e g.passes k m id (samples.get? binding))

/-- In a frame in which every pass runs once the results of the steps of a plan are delivered. -/
theorem result_delivered {registry : Registry} (hr : registry.ops.Built) {source : Bytes}
    {options : Options} {p : Plan} (hcompile : Plan.compile source registry options = .ok p)
    {lookup : String → Option Descriptor} {overrides : List ShaderOverride}
    (hclean : (p.expand lookup overrides).errors = []) {e : Executor Canvas} (he : e.Reachable)
    {g : LoadedGraph} (hg : e.current = some g) (hgraph : g.graph = p.expand lookup overrides)
    (hown : g.alloc = g.graph.allocate) {state : FrameState}
    (honce : g.Once (e.frameState state).env) :
    ∃ shots ends, (e.frame state).1.backend.shots = e.backend.shots ++ shots ++ ends ∧
      ((e.frame state).2 = none → shots.length = g.graph.passes.length) ∧
      p.Delivers lookup e g.graph shots := by
  have hlinked := Plan.linked_compile hr hcompile
  have hfeeds := feeds_expand hlinked hclean
  rw [← hgraph] at hfeeds
  have htidied := Executor.tidied_of_reachable he
  have hready := htidied.current g hg
  have hopen : OnOwnSlots (Frame.opened e g (e.frameState state)) :=
    ⟨htidied.surfaces, hready, hown⟩
  obtain ⟨hjobs, hrounds⟩ := LoadedGraph.jobs_of_once honce
  rw [hready.map_pass] at hjobs
  obtain ⟨done, f, ends, hpre, hall, hperforms, hframe, -⟩ := frame_performs hg state
  have hread : ∀ id b, e.surfaces.get? id = some b →
      (Frame.opened e g (e.frameState state)).read.get? id = some b.read := by
    intro id b hb
    rw [Frame.opened, Table.get?_map, hb]
    rfl
  obtain ⟨shots, hshots, hlen, hsamples⟩ := hopen.sampled hread hperforms hpre hrounds
  have hdone : done.map (·.pass) <+: g.graph.passes := hjobs ▸ hpre.map _
  refine ⟨shots, ends, by rw [hframe, hshots]; rfl, fun hnone => ?_, fun s hs => ?_⟩
  · rw [hlen, hall hnone, ← hjobs, List.length_map]
  · obtain ⟨d, hd, hplaced⟩ := hfeeds.takes s hs
    refine ⟨d, hd, fun i q hq => ?_⟩
    obtain ⟨before, made, after, hpasses, hid, htakes⟩ := hplaced i q hq
    have hmade : g.graph.passes[before.length]? = some made := by simp [hpasses]
    refine ⟨before.length, made, hmade, hid, fun hk => ?_⟩
    obtain ⟨hearlier, job, hjob, hpass⟩ := dispatch_of_prefix (hpasses ▸ hdone) (hlen ▸ hk)
    obtain ⟨samples, hshot, hsampled⟩ := hsamples before.length job hjob
    rw [hpass] at hshot
    refine ⟨samples, hshot, fun binding name c t hname hresult => ?_⟩
    obtain ⟨id, m, hget, hm, hholds, hwrote⟩ := htakes binding name c t hname hresult
    refine ⟨id, m, hget, hm, hholds, hm.unwritten hlinked hs, ?_⟩
    obtain ⟨hrecalled, hlast⟩ := hsampled binding id (hpass ▸ hget)
    cases hfb : isFeedback id with
    | true =>
        obtain ⟨b, hb, hsample⟩ := hrecalled hfb
        rw [hsample]
        exact .recalled hfb hb
    | false =>
        cases hwrite : lastWrite? e.backend.serial (done.take before.length) id with
        | none =>
            obtain ⟨v, hv, -, hwrites⟩ := hwrote
            obtain ⟨a, ha, rfl⟩ := List.mem_map.1 (hearlier ▸ hv)
            exact absurd hwrites (not_written_of_lastWrite? hwrite a ha)
        | some content =>
            obtain ⟨j, w, hwriter, hpaint⟩ :=
              lastWriter_of_lastWrite? hdone (Nat.le_of_lt (hlen ▸ hk)) hwrite
            rw [hlast hfb content hwrite, ← hpaint]
            exact .of_lastWriter hfeeds.outputs hfb hwriter (by rwa [hpasses, List.take_left])

/-! ## four lamps and a mixer -/

def bench : Registry where
  ops := {
    specs := .ofList [("carve", { name := "carve" }), ("lamp", { name := "lamp" }),
      ("mix", { name := "mix", args := ["a", "b", "c"].map fun name =>
                  { name, type := .surface } })]
    starters := ["lamp"] }

theorem bench_built : bench.ops.Built := by
  have hcarve : ({} : Operations).register "carve" [] = .ok _ := rfl
  have hlamp : Operations.register { specs := .ofList [("carve", { name := "carve" })] } "lamp" [] =
    .ok _ := rfl
  have hmix : Operations.register
      { specs := .ofList [("carve", { name := "carve" }), ("lamp", { name := "lamp" })] } "mix"
      (["a", "b", "c"].map fun name => { name, type := .surface }) = .ok _ := rfl
  exact .markStarters (.register (.register (.register .empty hcarve) hlamp) hmix) ["lamp"]

/-- Carving makes a volume of an image, mixing an image of four. -/
def benchEffects (op : String) : Option Descriptor :=
  let pass (inputs : List (String × String)) (output : String) : EffectChain.Pass :=
    { program := "main", inputs := .ofList inputs, outputs := .ofList [("color", output)] }
  let effect (params : List String) (pass : EffectChain.Pass) : Descriptor :=
    { name := op, params := params.map fun name => { name, type := "surface" }
      programs := .ofList [("main", {})], passes := [pass] }
  match op with
  | "carve" => some (effect [] (pass [("src", "inputTex")] "outputTex3d"))
  | "lamp" => some (effect [] (pass [] "outputTex"))
  | "mix" =>
      some (effect ["a", "b", "c"]
        (pass [("a", "a"), ("b", "b"), ("c", "c"), ("src", "inputTex")] "outputTex"))
  | _ => none

/-- A lamp is carved and then mixed with three others, of which two are written to one output. -/
def benchSource : Bytes :=
  .ofString
    "search s lamp().carve().mix(a: lamp().out(f0), b: lamp().out(o1), c: lamp().out(o1)).out(o0)"

def benchTokens : List Token :=
  let token (col : Nat) (kind : TokenKind) (word : String) : Token :=
    ⟨kind, Bytes.ofString word, ⟨1, col⟩⟩
  let call (col : Nat) (name : String) : List Token :=
    [token col .identifier name, token (col + name.length) .lparen "(",
      token (col + name.length + 1) .rparen ")"]
  let out (col : Nat) (surface : String) : List Token :=
    [token col .dot ".", token (col + 1) .identifier "out", token (col + 4) .lparen "(",
      token (col + 5) .surface surface, token (col + 7) .rparen ")"]
  let keyword (col : Nat) (name : String) : List Token :=
    [token col .identifier name, token (col + 1) .colon ":"]
  [token 1 .keyword "search", token 8 .identifier "s"] ++ call 10 "lamp" ++ [token 16 .dot "."] ++
    call 17 "carve" ++
    [token 24 .dot ".", token 25 .identifier "mix", token 28 .lparen "("] ++
    keyword 29 "a" ++ call 32 "lamp" ++ out 38 "f0" ++ [token 46 .comma ","] ++
    keyword 48 "b" ++ call 51 "lamp" ++ out 57 "o1" ++ [token 65 .comma ","] ++
    keyword 67 "c" ++ call 70 "lamp" ++ out 76 "o1" ++ [token 84 .rparen ")"] ++ out 85 "o0" ++
    [token 93 .endOfInput ""]

def benchProgram : Program where
  search := ["s"]
  statements :=
    let ns := { resolved := true, search := ["s"] }
    let lamp (name : String) (col : Nat) (surface : Surface) : Keyword :=
      ⟨name, .chain {
        calls := [{ name := "lamp", ns, pos := ⟨1, col + 3⟩ }]
        out := some (.surface surface ⟨1, col + 14⟩)
        pos := ⟨1, col + 3⟩ }, ⟨1, col⟩⟩
    let kwargs := [lamp "a" 29 ⟨.feedback, 0⟩, lamp "b" 48 ⟨.output, 1⟩, lamp "c" 67 ⟨.output, 1⟩]
    [.run {
      calls := [{ name := "lamp", ns, pos := ⟨1, 10⟩ }, { name := "carve", ns, pos := ⟨1, 17⟩ },
        { name := "mix", kwargs, ns, pos := ⟨1, 25⟩ }]
      out := some (.surface ⟨.output, 0⟩ ⟨1, 90⟩)
      pos := ⟨1, 10⟩ } ⟨1, 10⟩]

def benchPlan : Plan where
  search := ["s"]
  steps :=
    let ns := { resolved := true, search := ["s"] }
    let lamp (temp col : Nat) : Step := { op := "lamp", temp, ns, pos := ⟨1, col⟩ }
    [lamp 0 10, { op := "carve", source := some 0, temp := 1, ns, pos := ⟨1, 17⟩ },
      { lamp 2 32 with out := some ⟨.feedback, 0⟩ }, { lamp 3 51 with out := some ⟨.output, 1⟩ },
      { lamp 4 70 with out := some ⟨.output, 1⟩ },
      { op := "mix",
        args := .ofList [("a", .ref ⟨.temp, 2⟩), ("b", .ref ⟨.temp, 3⟩), ("c", .ref ⟨.temp, 4⟩)],
          explicit := ["a", "b", "c"], source := some 1, temp := 5, ns, out := some ⟨.output, 0⟩,
            pos := ⟨1, 25⟩ }]

theorem bench_compile : Plan.compile benchSource bench {} = .ok benchPlan := by
  have hscan : Token.scan benchSource = .ok benchTokens := by
    rw [show benchSource = _ from Bytes.ofString_ofList _]
    decide +kernel
  have hparse : Program.ofTokens {} benchTokens = .ok benchProgram := by cbv
  exact Plan.compile_of_stages hscan hparse rfl

def benchGraph : Graph := benchPlan.expand benchEffects

def benchStart : Executor Canvas := { backend := {}, width := 64, height := 32 }

def benchLit : Executor Canvas := (benchStart.load benchGraph none).1

def benchLoaded : LoadedGraph := benchLit.current.getD default

def benchSamples : Table Mark :=
  .ofList [("a", .blank), ("b", .paint 4 "color"), ("c", .paint 4 "color"),
    ("src", .paint 0 "color")]

/-- What a frame of the lamps comes to. -/
theorem bench_frame : (benchStart.load benchGraph none).2 = none ∧ (benchLit.frame {}).2 = none ∧
    ((Frame.stepGroups benchLoaded.passes).all fun ps =>
      groupRounds (benchLit.frameState {}).env ps = 1 ∧
        ps.all fun q => q.runs (benchLit.frameState {}).env = 1) = true ∧
    benchLit.backend.serial = 0 ∧ benchGraph.passes.map (·.step) = [0, 1, 2, 3, 4, 5] ∧
    .drawn "node_5_pass_0" benchSamples ∈ (benchLit.frame {}).1.backend.shots := by
  decide +kernel

theorem bench_lit :
    benchLit.Reachable ∧ benchLit.current = some benchLoaded ∧ benchLoaded.graph = benchGraph ∧
    benchLoaded.alloc = benchLoaded.graph.allocate := by
  have hstart : Executor.start ({} : Canvas) 64 32 = ({}, .ok benchStart) := rfl
  -- the renderer is opened by its equation, so that nothing is run again
  have hstate : (benchStart.load benchGraph none).1 = benchLit := by rw [benchLit]
  obtain ⟨passes, hcurrent⟩ := Executor.load_current (Executor.load_eq hstate bench_frame.1)
  have hgraph : benchLoaded = _ := congrArg (Option.getD · default) hcurrent
  refine ⟨?_, ?_, ?_, ?_⟩
  · rw [benchLit]
    exact .load (.start hstart) benchGraph none
  · rw [hgraph, hcurrent]
    rfl
  · rw [hgraph]
    rfl
  · rw [hgraph]
    rfl

theorem bench_once : benchLoaded.Once (benchLit.frameState {}).env := by
  obtain ⟨-, -, hall, -⟩ := bench_frame
  simpa [LoadedGraph.Once] using hall

theorem bench_clean : (benchPlan.expand benchEffects).errors = [] := by decide +kernel

theorem bench_delivered : bench.ops.Built ∧ Plan.compile benchSource bench {} = .ok benchPlan ∧
    (benchPlan.expand benchEffects).errors = [] ∧ benchLit.Reachable ∧
    benchLit.current = some benchLoaded ∧
    benchLoaded.graph = benchPlan.expand benchEffects ∧
    benchLoaded.alloc = benchLoaded.graph.allocate ∧
    benchLoaded.Once (benchLit.frameState {}).env ∧
    ∃ shots ends, (benchLit.frame {}).1.backend.shots = benchLit.backend.shots ++ shots ++ ends ∧
      ((benchLit.frame {}).2 = none → shots.length = benchLoaded.graph.passes.length) ∧
      benchPlan.Delivers benchEffects benchLit benchLoaded.graph shots := by
  obtain ⟨hreach, hg, hgraph, hown⟩ := bench_lit
  exact ⟨bench_built, bench_compile, bench_clean, hreach, hg, hgraph, hown, bench_once,
    result_delivered bench_built bench_compile bench_clean hreach hg hgraph hown bench_once⟩

/-- Three results are not sampled as the passes of their steps have made them: one step makes
no image, one is written to a feedback, and one is written over. -/
theorem bench_samples_others : bench.ops.Built ∧ Plan.compile benchSource bench {} = .ok benchPlan ∧
    (benchPlan.expand benchEffects).errors = [] ∧ benchLit.Reachable ∧
    benchLit.current = some benchLoaded ∧
    benchLoaded.graph = benchPlan.expand benchEffects ∧
    benchLoaded.Once (benchLit.frameState {}).env ∧
    (benchLit.frame {}).2 = none ∧
    ∃ s d q samples, s ∈ benchPlan.steps ∧ benchEffects s.op = some d ∧ d.passes[0]? = some q ∧
      Shot.drawn (passId s 0) samples ∈ (benchLit.frame {}).1.backend.shots ∧
      ∀ binding t, (binding, t) ∈ [("src", 1), ("a", 2), ("b", 3)] →
        (∃ name, q.inputs.get? binding = some name ∧ s.TakesResult d name .image t) ∧
        ∀ (k : Nat) w a, benchLoaded.graph.passes[k]? = some w → w.step = t →
          samples.get? binding ≠ some (.paint (benchLit.backend.serial + k) a) := by
  obtain ⟨hreach, hg, hgraph, -⟩ := bench_lit
  obtain ⟨-, hnone, -, hserial, hsteps, hshot⟩ := bench_frame
  refine ⟨bench_built, bench_compile, bench_clean, hreach, hg, hgraph, bench_once, hnone, _, _, _,
    benchSamples, List.mem_of_getElem? (i := 5) rfl, rfl, rfl, hshot, ?_⟩
  have hplace : ∀ (k t : Nat) (w : Graph.Pass), benchLoaded.graph.passes[k]? = some w → w.step = t →
      k = t := by
    intro k t w hw ht
    have hk : ([0, 1, 2, 3, 4, 5] : List Int)[k]? = some (t : Int) := by
      rw [← hsteps, ← hgraph, List.getElem?_map, hw, ← ht]
      rfl
    match k, hk with
    | 0, hk | 1, hk | 2, hk | 3, hk | 4, hk | 5, hk => exact Int.ofNat.inj (Option.some.inj hk)
  intro binding t hmem
  simp only [List.mem_cons, List.not_mem_nil, or_false, Prod.mk.injEq] at hmem
  rcases hmem with ⟨rfl, rfl⟩ | ⟨rfl, rfl⟩ | ⟨rfl, rfl⟩
  · refine ⟨⟨"inputTex", rfl, .chain rfl rfl⟩, fun k w a hw ht hsame => ?_⟩
    rw [hplace k 1 w hw ht, hserial] at hsame
    cases (hsame : some (Mark.paint 0 "color") = _)
  · refine ⟨⟨"a", rfl, .argument (by decide) rfl rfl⟩, fun k w a hw ht hsame => ?_⟩
    cases (hsame : some Mark.blank = _)
  · refine ⟨⟨"b", rfl, .argument (by decide) rfl rfl⟩, fun k w a hw ht hsame => ?_⟩
    rw [hplace k 3 w hw ht, hserial] at hsame
    cases (hsame : some (Mark.paint 4 "color") = _)

end EffectChain
