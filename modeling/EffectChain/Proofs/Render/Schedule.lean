import Mathlib.Data.List.SplitBy
import EffectChain.Render.Frame

/-!
# EffectChain.Proofs.Render.Schedule

The schedule of a frame: the dispatches a frame asks for when nothing goes wrong,
in their order.

Guards, rounds and the number of runs of a pass depend on the values of the frame
alone, so the schedule is known before the frame starts (`LoadedGraph.jobs`).

* `groups_outcome` — a frame makes the dispatches of its schedule, all of them when
  it succeeds and the first few when it fails;
* `jobs_pairwise`, `jobs_repeat` — the schedule goes through the groups in order and
  through the passes of a group once a round, every round alike.
-/

namespace EffectChain

/-- One dispatch in the schedule of a frame. -/
structure Job where
  pass : Graph.Pass
  /-- The place of the pass in its graph. -/
  place : Nat
  /-- The group of the pass. -/
  group : Nat
  /-- The round of the group. -/
  round : Nat
  deriving Repr, Inhabited

namespace LoadedPass

/-- The uniforms of a pass in a frame. -/
def uniforms (p : LoadedPass) (env : Env) : Table Datum := p.pass.uniforms.map fun _ v => v.eval env

/-- How often a pass runs in a round; a pass whose conditions have no value does not. -/
def runs (p : LoadedPass) (env : Env) : Nat :=
  match p.times (env.union (p.uniforms env)) with
  | .ok n => n.toNat
  | .error _ => 0

end LoadedPass

/-- The dispatches of one round of a group whose first pass has the given place. -/
def roundJobs (env : Env) (group round : Nat) : Nat → List LoadedPass → List Job
  | _, [] => []
  | place, p :: ps =>
    List.replicate (p.runs env) ⟨p.pass, place, group, round⟩ ++ roundJobs env group round
      (place + 1) ps

/-- The number of rounds of a group, none when a guard does not hold. -/
def groupRounds (env : Env) : List LoadedPass → Nat
  | [] => 0
  | p :: _ =>
    if p.pass.guards.all fun g =>
      (g.eval env).truthy then (p.pass.repetition.inFrame env).toNat else 0

/-- The dispatches of a group. -/
def groupJobs (env : Env) (group place : Nat) (ps : List LoadedPass) : List Job :=
  (List.range (groupRounds env ps)).flatMap fun round => roundJobs env group round place ps

/-- The dispatches of groups. -/
def jobsFrom (env : Env) : Nat → Nat → List (List LoadedPass) → List Job
  | _, _, [] => []
  | group, place, ps :: rest =>
    groupJobs env group place ps ++ jobsFrom env (group + 1) (place + ps.length) rest

/-- The schedule of a frame over passes. -/
def schedule (passes : List LoadedPass) (env : Env) : List Job :=
  jobsFrom env 0 0 (Frame.stepGroups passes)

/-- The schedule of a frame of a graph. -/
def LoadedGraph.jobs (g : LoadedGraph) (env : Env) : List Job := schedule g.passes env

/-! ## the order of the schedule -/

namespace Job

/-- The order of dispatches: by group, then by round, then by the place of the pass. -/
def Before (a b : Job) : Prop :=
  a.group < b.group ∨ a.group = b.group ∧
    (a.round < b.round ∨ a.round = b.round ∧ a.place ≤ b.place)

end Job

section order

variable {env : Env} {group round place : Nat} {ps : List LoadedPass} {gs : List (List LoadedPass)}
    {j : Job}

/-- The jobs of one round are the passes that run, each at its place. -/
theorem mem_roundJobs : j ∈ roundJobs env group round place ps ↔
    ∃ i p, ps[i]? = some p ∧ 0 < p.runs env ∧ j = ⟨p.pass, place + i, group, round⟩ := by
  induction ps generalizing place with
  | nil => simp [roundJobs]
  | cons p ps ih =>
      rw [roundJobs, List.mem_append, List.mem_replicate, ih]
      constructor
      · rintro (⟨hruns, rfl⟩ | ⟨i, q, hq, hruns, rfl⟩)
        · exact ⟨0, p, rfl, by omega, rfl⟩
        · exact ⟨i + 1, q, hq, hruns, by simp; omega⟩
      · rintro ⟨i, q, hq, hruns, rfl⟩
        cases i with
        | zero =>
            obtain rfl : p = q := by simpa using hq
            exact .inl ⟨by omega, rfl⟩
        | succ i => exact .inr ⟨i, q, by simpa using hq, hruns, by simp; omega⟩

theorem mem_groupJobs : j ∈ groupJobs env group place ps ↔
    ∃ round < groupRounds env ps, j ∈ roundJobs env group round place ps := by
  simp [groupJobs]

/-- A dispatch of a group is one of a pass of the group, in one of its rounds. -/
theorem bounds_of_mem_groupJobs (h : j ∈ groupJobs env group place ps) :
    j.group = group ∧ place ≤ j.place ∧ (ps[j.place - place]?).map (·.pass) = some j.pass := by
  obtain ⟨round, -, hj⟩ := mem_groupJobs.1 h
  obtain ⟨i, p, hp, -, rfl⟩ := mem_roundJobs.1 hj
  exact ⟨rfl, by simp, by simp [hp]⟩

/-- A job of a group stands at a place inside of it. -/
theorem place_lt_of_mem_groupJobs (h : j ∈ groupJobs env group place ps) :
    j.place < place + ps.length := by
  obtain ⟨round, -, hj⟩ := mem_groupJobs.1 h
  obtain ⟨i, p, hp, -, rfl⟩ := mem_roundJobs.1 hj
  have := (List.getElem?_eq_some_iff.1 hp).1
  simp only
  omega

/-- A dispatch is one of the pass at its place. -/
theorem bounds_of_mem_jobsFrom (h : j ∈ jobsFrom env group place gs) :
    group ≤ j.group ∧ place ≤ j.place ∧ (gs.flatten[j.place - place]?).map (·.pass) =
      some j.pass := by
  induction gs generalizing group place with
  | nil => simp [jobsFrom] at h
  | cons ps gs ih =>
      rcases List.mem_append.1 h with h | h
      · obtain ⟨hgroup, hplace, hpass⟩ := bounds_of_mem_groupJobs h
        have hlt := place_lt_of_mem_groupJobs h
        refine ⟨by omega, hplace, ?_⟩
        rw [List.flatten_cons, List.getElem?_append_left (by omega)]
        exact hpass
      · obtain ⟨hgroup, hplace, hpass⟩ := ih h
        refine ⟨by omega, by omega, ?_⟩
        rw [List.flatten_cons, List.getElem?_append_right (by omega), ← hpass]
        congr 2
        omega

/-- The jobs of a round come in the order of their places. -/
theorem roundJobs_pairwise (ps : List LoadedPass) (place : Nat) :
    (roundJobs env group round place ps).Pairwise Job.Before := by
  induction ps generalizing place with
  | nil => exact .nil
  | cons p ps ih =>
      refine List.pairwise_append.2 ⟨?_, ih (place + 1), ?_⟩
      · exact List.pairwise_replicate.2 (.inr (by simp [Job.Before]))
      · intro a ha b hb
        obtain ⟨-, rfl⟩ := List.mem_replicate.1 ha
        obtain ⟨i, q, -, -, rfl⟩ := mem_roundJobs.1 hb
        exact .inr ⟨rfl, .inr ⟨rfl, by simp; omega⟩⟩

/-- The jobs of a group come round after round. -/
theorem groupJobs_pairwise : (groupJobs env group place ps).Pairwise Job.Before := by
  rw [groupJobs, List.flatMap, List.pairwise_flatten]
  constructor
  · intro js hjs
    obtain ⟨round, -, rfl⟩ := List.mem_map.1 hjs
    exact roundJobs_pairwise ps place
  · rw [List.pairwise_map]
    refine List.pairwise_lt_range.imp fun hlt a ha b hb => ?_
    obtain ⟨i, p, -, -, rfl⟩ := mem_roundJobs.1 ha
    obtain ⟨i', q, -, -, rfl⟩ := mem_roundJobs.1 hb
    exact .inr ⟨rfl, .inl hlt⟩

/-- The jobs of several groups come group after group. -/
theorem jobsFrom_pairwise (gs : List (List LoadedPass)) (group place : Nat) :
    (jobsFrom env group place gs).Pairwise Job.Before := by
  induction gs generalizing group place with
  | nil => exact .nil
  | cons ps gs ih =>
      refine List.pairwise_append.2 ⟨groupJobs_pairwise, ih _ _, ?_⟩
      intro a ha b hb
      have h1 := (bounds_of_mem_groupJobs ha).1
      have h2 := (bounds_of_mem_jobsFrom hb).1
      exact .inl (by omega)

/-- What a group dispatches in one round it dispatches in every round. -/
theorem jobsFrom_repeat {a b : Job} (gs : List (List LoadedPass)) (group place : Nat)
    (ha : a ∈ jobsFrom env group place gs) (hb : b ∈ jobsFrom env group place gs)
    (hab : a.group = b.group) {r : Nat} (hr : r ≤ b.round) :
    { a with round := r } ∈ jobsFrom env group place gs := by
  induction gs generalizing group place with
  | nil => simp [jobsFrom] at ha
  | cons ps gs ih =>
      rw [jobsFrom, List.mem_append] at ha hb ⊢
      rcases ha with ha | ha <;> rcases hb with hb | hb
      · obtain ⟨s, -, ha⟩ := mem_groupJobs.1 ha
        obtain ⟨s', hs', hb⟩ := mem_groupJobs.1 hb
        obtain ⟨i, p, hp, hruns, rfl⟩ := mem_roundJobs.1 ha
        obtain ⟨i', q, -, -, rfl⟩ := mem_roundJobs.1 hb
        exact .inl (mem_groupJobs.2 ⟨r, Nat.lt_of_le_of_lt hr hs',
          mem_roundJobs.2 ⟨i, p, hp, hruns, rfl⟩⟩)
      · have h1 := (bounds_of_mem_groupJobs ha).1
        have h2 := (bounds_of_mem_jobsFrom hb).1
        omega
      · have h1 := (bounds_of_mem_jobsFrom ha).1
        have h2 := (bounds_of_mem_groupJobs hb).1
        omega
      · exact .inr (ih _ _ ha hb)

/-- A pass of an earlier group has an earlier place. -/
theorem place_lt_of_group_lt {a b : Job} (gs : List (List LoadedPass)) (group place : Nat)
    (ha : a ∈ jobsFrom env group place gs) (hb : b ∈ jobsFrom env group place gs)
    (hab : a.group < b.group) : a.place < b.place := by
  induction gs generalizing group place with
  | nil => simp [jobsFrom] at ha
  | cons ps gs ih =>
      rw [jobsFrom, List.mem_append] at ha hb
      rcases ha with ha | ha <;> rcases hb with hb | hb
      · have h1 := (bounds_of_mem_groupJobs ha).1
        have h2 := (bounds_of_mem_groupJobs hb).1
        omega
      · have h1 := place_lt_of_mem_groupJobs ha
        have h2 := (bounds_of_mem_jobsFrom hb).2.1
        omega
      · have h1 := (bounds_of_mem_jobsFrom ha).1
        have h2 := (bounds_of_mem_groupJobs hb).1
        omega
      · exact ih _ _ ha hb

end order

namespace LoadedGraph

variable {g : LoadedGraph} {env : Env}

theorem jobs_pairwise (g : LoadedGraph) (env : Env) : (g.jobs env).Pairwise Job.Before :=
  jobsFrom_pairwise _ _ _

theorem jobs_repeat {a b : Job} (ha : a ∈ g.jobs env) (hb : b ∈ g.jobs env)
    (hab : a.group = b.group) {r : Nat} (hr : r ≤ b.round) : { a with round := r } ∈ g.jobs env :=
  jobsFrom_repeat _ _ _ ha hb hab hr

theorem jobs_place_lt {a b : Job} (ha : a ∈ g.jobs env) (hb : b ∈ g.jobs env)
    (hab : a.group < b.group) :
    a.place < b.place :=
  place_lt_of_group_lt _ _ _ ha hb hab

/-- A job carries the pass that stands at its place. -/
theorem pass_of_mem_jobs {j : Job} (h : j ∈ g.jobs env) :
    (g.passes[j.place]?).map (·.pass) = some j.pass := by
  have hpass := (bounds_of_mem_jobsFrom h).2.2
  rw [Frame.stepGroups, List.flatten_splitBy] at hpass
  simpa using hpass

end LoadedGraph

/-! ## what a dispatch does -/

namespace Frame

variable {β : Type}

/-- What stays the same all through a frame: its graph, its values, and the size and
the graph of the renderer. -/
structure SameSetting (f f' : Frame β) : Prop where
  current : f'.current = f.current
  state : f'.state = f.state
  env : f'.env = f.env
  width : f'.exec.width = f.exec.width
  height : f'.exec.height = f.exec.height
  scene : f'.exec.current = f.exec.current

theorem SameSetting.refl (f : Frame β) : SameSetting f f := ⟨rfl, rfl, rfl, rfl, rfl, rfl⟩

/-- A setting that stays the same twice is the same. -/
theorem SameSetting.trans {f f' f'' : Frame β} (h : SameSetting f f') (h' : SameSetting f' f'') :
    SameSetting f f'' where
  current := h'.current.trans h.current
  state := h'.state.trans h.state
  env := h'.env.trans h.env
  width := h'.width.trans h.width
  height := h'.height.trans h.height
  scene := h'.scene.trans h.scene

theorem bindWrite_same (f : Frame β) (pass id : String) :
    SameSetting f (f.bindWrite pass id).1 := by
  unfold bindWrite
  split <;> exact ⟨rfl, rfl, rfl, rfl, rfl, rfl⟩

/-- Binding all outputs keeps the setting. -/
theorem bindOutputs_same (pass : String) (f : Frame β) (bound : Table String)
    (outs : List (String × String)) : SameSetting f (bindOutputs pass f bound outs).1 := by
  fun_induction bindOutputs pass f bound outs with
  | case1 f bound => exact .refl f
  | case2 f bound name id rest f' e h =>
      have hone := bindWrite_same f pass id
      rwa [h] at hone
  | case3 f bound name id rest f' t h ih =>
      have hone := bindWrite_same f pass id
      rw [h] at hone
      exact hone.trans ih

/-- Committing outputs keeps the setting. -/
theorem commit_same (f : Frame β) (outputs : Table String) : SameSetting f (f.commit outputs) := by
  unfold commit
  induction outputs.values generalizing f with
  | nil => exact .refl f
  | cons id ids ih =>
      have hone : SameSetting f (f.commitOne id) := by
        unfold commitOne
        split
        · exact .refl f
        · split <;> exact ⟨rfl, rfl, rfl, rfl, rfl, rfl⟩
      exact hone.trans (ih (f.commitOne id))

variable [Backend β]

/-- A dispatch that succeeds binds the inputs, then the outputs, hands them to the
backend and notes what was written. -/
theorem dispatch_none {p : Graph.Pass} {u : Table Datum} {f f' : Frame β} {n : Int}
    (h : dispatch p u f n = (f', none)) :
    ∃ inputs f₁ outputs d exec, f.bindInputs p.id p.inputs = .ok inputs ∧
      bindOutputs p.id f {} p.outputs.entries = (f₁, .ok outputs) ∧
      d.pass = p.id ∧ d.inputs = inputs ∧ d.outputs = outputs ∧
      f₁.exec.submit (.executePass d f₁.state) = (exec, none) ∧
      f' = { f₁ with exec }.commit p.outputs := by
  unfold dispatch at h
  split at h
  · simp at h
  · next inputs hin =>
      split at h
      · simp at h
      · next f₁ outputs hout =>
          split at h
          · simp at h
          · next groups hgroups =>
              simp only at h
              split at h
              · simp at h
              · next exec hsub =>
                  exact ⟨inputs, f₁, outputs, _, exec, hin, hout, rfl, rfl, rfl, hsub,
                    (congrArg Prod.fst h).symm⟩

/-- A dispatch that fails leaves the frame with at most the outputs bound, unless the
backend refuses it. -/
theorem dispatch_some {p : Graph.Pass} {u : Table Datum} {f f' : Frame β} {n : Int}
    {e : RenderError} (h : dispatch p u f n = (f', some e)) :
    f' = f ∨ f' = (bindOutputs p.id f {} p.outputs.entries).1 ∨
      ∃ b c r, (Backend.submit (β := β) b c).2 = some r := by
  unfold dispatch at h
  split at h
  · exact .inl (congrArg Prod.fst h).symm
  · split at h
    · next f₁ e hout => exact .inr (.inl (by rw [hout]; exact (congrArg Prod.fst h).symm))
    · next f₁ outputs hout =>
        split at h
        · exact .inr (.inl (by rw [hout]; exact (congrArg Prod.fst h).symm))
        · simp only at h
          split at h
          · next exec r hsub => exact .inr (.inr ⟨_, _, r, congrArg Prod.snd hsub⟩)
          · simp at h

/-- A dispatch that goes through keeps the setting. -/
theorem dispatch_same {p : Graph.Pass} {u : Table Datum} {f f' : Frame β} {n : Int}
    (h : dispatch p u f n = (f', none)) : SameSetting f f' := by
  obtain ⟨inputs, f₁, outputs, d, exec, -, hout, -, -, -, hsub, rfl⟩ := dispatch_none h
  have h₁ : SameSetting f f₁ := by
    have := bindOutputs_same p.id f {} p.outputs.entries
    rwa [hout] at this
  obtain rfl : (f₁.exec.submit (.executePass d f₁.state)).1 = exec := congrArg Prod.fst hsub
  have h₂ : SameSetting f₁ { f₁ with exec := (f₁.exec.submit (.executePass d f₁.state)).1 } :=
    ⟨rfl, rfl, rfl, rfl, rfl, rfl⟩
  exact (h₁.trans h₂).trans (commit_same _ p.outputs)

end Frame

/-! ## a frame as a whole -/

/-- The state of a frame; one without a size takes that of the renderer. -/
def Executor.frameState {β : Type} (e : Executor β) (state : FrameState) : FrameState :=
  if state.width = 0 || state.height = 0 then { state with width := e.width, height := e.height }
    else state

/-- A frame before its first dispatch. -/
def Frame.opened {β : Type} (e : Executor β) (g : LoadedGraph) (state : FrameState) : Frame β :=
  { exec := e, current := g, state, env := state.env, read := e.surfaces.map fun _ b => b.read }

/-- The end of a frame after its dispatches: it is aborted when one of them failed. -/
def Frame.close {β : Type} [Backend β] :
    Frame β × Option RenderError → Executor β × Option RenderError
  | (f, some err) => f.abort err
  | (f, none) => f.finish

@[simp] theorem Frame.close_none {β : Type} [Backend β] (f : Frame β) :
    close (f, none) = f.finish := rfl

@[simp] theorem Frame.close_some {β : Type} [Backend β] (f : Frame β) (err : RenderError) :
    close (f, some err) = f.abort err := rfl

/-- A frame of a graph runs its groups and is closed. -/
theorem Executor.frame_eq {β : Type} [Backend β] {e e₁ : Executor β} {g : LoadedGraph}
    {state : FrameState} (hdisposed : e.disposed = false) (hcurrent : e.current = some g)
    (hbegin : e.submit (.beginFrame (e.frameState state)) = (e₁, none)) :
    e.frame state = Frame.close
      (runList Frame.group (Frame.opened e₁ g (e.frameState state))
        (Frame.stepGroups g.passes)) := by
  unfold Executor.frameState at hbegin
  unfold Executor.frame Frame.opened Executor.frameState
  rw [hdisposed, hcurrent]
  dsimp only
  rw [hbegin]
  rfl

/-! ## the dispatches of a frame -/

section outcome

variable {β : Type} [Backend β] {env : Env} {f f' f'' : Frame β} {js ks : List Job}

/-- Dispatches that succeed one after another. -/
inductive Performs : Frame β → List Job → Frame β → Prop
  | nil (f : Frame β) : Performs f [] f
  | cons {f f' f'' : Frame β} {j : Job} {js : List Job} (u : Table Datum) (n : Int)
      (first : Frame.dispatch j.pass u f n = (f', none)) (rest : Performs f' js f'') :
      Performs f (j :: js) f''

theorem Performs.append (h : Performs f js f') (h' : Performs f' ks f'') :
    Performs f (js ++ ks) f'' := by
  induction h with
  | nil f => exact h'
  | cons u n first _ ih => exact .cons u n first (ih h')

/-- What is performed in one go can be stopped in between. -/
theorem Performs.split (js : List Job) (h : Performs f (js ++ ks) f'') :
    ∃ f', Performs f js f' ∧ Performs f' ks f'' := by
  induction js generalizing f with
  | nil => exact ⟨f, .nil f, h⟩
  | cons j js ih =>
      cases h with
      | cons u n first rest =>
          obtain ⟨f', hjs, hks⟩ := ih rest
          exact ⟨f', .cons u n first hjs, hks⟩

theorem Performs.same (h : Performs f js f') : f.SameSetting f' := by
  induction h with
  | nil f => exact .refl f
  | cons u n first _ ih => exact (Frame.dispatch_same first).trans ih

/-- Where a frame stops that fails, with the given dispatches still to make: before the
next dispatch, or in it. -/
def StopsAt (rest : List Job) (f f' : Frame β) : Prop :=
  f' = f ∨ ∃ (h : rest ≠ []) (u : Table Datum) (n : Int) (e : RenderError),
    Frame.dispatch (rest.head h).pass u f n = (f', some e)

/-- A frame that stops within its jobs stops within more of them. -/
theorem StopsAt.append {rest : List Job} (h : StopsAt rest f f') (ks : List Job) :
    StopsAt (rest ++ ks) f f' := by
  rcases h with rfl | ⟨hrest, u, n, e, hd⟩
  · exact .inl rfl
  · refine .inr ⟨by simp [hrest], u, n, e, ?_⟩
    rwa [List.head_append_of_ne_nil hrest]

/-- The dispatch a frame stops in is the next of the schedule. -/
theorem StopsAt.next {done : List Job} (hdone : done <+: js)
    (h : StopsAt (js.drop done.length) f f') :
    f' = f ∨
      ∃ j : Job, ∃ u n e, done ++ [j] <+: js ∧ Frame.dispatch j.pass u f n = (f', some e) := by
  rcases h with rfl | ⟨hrest, u, n, e, hd⟩
  · exact .inl rfl
  · obtain ⟨rest, rfl⟩ := hdone
    simp only [List.drop_left] at hrest hd
    refine .inr ⟨rest.head hrest, u, n, e, ?_, hd⟩
    rw [List.prefix_append_right_inj]
    exact ⟨rest.tail, List.cons_head_tail hrest⟩

/-- A part of a frame makes the scheduled dispatches, the first few when it fails. -/
def Outcome (js : List Job) (f : Frame β) : Frame β × Option RenderError → Prop
  | (f', none) => Performs f js f'
  | (f', some _) =>
      ∃ done f₁, done <+: js ∧ Performs f done f₁ ∧ StopsAt (js.drop done.length) f₁ f'

/-- A part that fails before its first dispatch. -/
theorem Outcome.fail (js : List Job) (f : Frame β) (e : RenderError) : Outcome js f (f, some e) :=
  ⟨[], f, List.nil_prefix, .nil f, .inl rfl⟩

/-- A part that follows another makes its dispatches after those of the other. -/
theorem Outcome.seq {α : Type} {step : Frame β → α → Frame β × Option RenderError} {a : α}
    {as : List α} (hfirst : Outcome js f (step f a))
    (hrest : ∀ f', f.SameSetting f' → Outcome ks f' (runList step f' as)) :
    Outcome (js ++ ks) f (runList step f (a :: as)) := by
  rw [runList]
  cases hs : step f a with
  | mk f₁ r =>
      rw [hs] at hfirst
      cases r with
      | some e =>
          obtain ⟨done, f₂, hpre, hdone, hstop⟩ := hfirst
          refine ⟨done, f₂, hpre.trans (List.prefix_append _ _), hdone, ?_⟩
          rw [List.drop_append_of_le_length hpre.length_le]
          exact hstop.append ks
      | none =>
          have hfirst : Performs f js f₁ := hfirst
          have hrest := hrest f₁ hfirst.same
          simp only
          cases hr : runList step f₁ as with
          | mk f₂ r =>
              rw [hr] at hrest
              cases r with
              | none => exact hfirst.append hrest
              | some e =>
                  obtain ⟨done, f₃, hpre, hdone, hstop⟩ := hrest
                  refine ⟨js ++ done, f₃, (List.prefix_append_right_inj _).2 hpre,
                    hfirst.append hdone, ?_⟩
                  rwa [List.length_append, List.drop_length_add_append]

/-- A dispatch on its own. -/
theorem dispatch_outcome (j : Job) (u : Table Datum) (f : Frame β) (n : Int) :
    Outcome [j] f (Frame.dispatch j.pass u f n) := by
  cases hd : Frame.dispatch j.pass u f n with
  | mk f' r =>
      cases r with
      | none => exact .cons u n hd (.nil f')
      | some e => exact ⟨[], f, List.nil_prefix, .nil f, .inr ⟨by simp, u, n, e, hd⟩⟩

/-- The runs of a pass in a round. -/
theorem pass_outcome (place group round : Nat) (p : LoadedPass) (f : Frame β) (henv : f.env = env) :
    Outcome (List.replicate (p.runs env) ⟨p.pass, place, group, round⟩) f
      (Frame.pass (round : Int) f p) := by
  have hruns : ∀ (u : Table Datum) (ns : List Int) (f : Frame β),
      Outcome (List.replicate ns.length ⟨p.pass, place, group, round⟩) f
        (runList (Frame.dispatch p.pass u) f ns) := by
    intro u ns
    induction ns with
    | nil => exact fun f => .nil f
    | cons n ns ih =>
        intro f
        exact Outcome.seq (dispatch_outcome ⟨p.pass, place, group, round⟩ u f n) fun f' _ => ih f'
  subst henv
  unfold Frame.pass LoadedPass.runs LoadedPass.uniforms
  dsimp only
  generalize p.times (f.env.union (p.pass.uniforms.map fun _ v => v.eval f.env)) = times
  cases times with
  | error e => exact Outcome.fail _ _ _
  | ok n =>
      simp only
      split
      · exact Outcome.fail _ _ _
      · have hlen : n.toNat = ((Frame.rounds n).map ((round : Int) * n + ·)).length := by
          simp [Frame.rounds]
        rw [hlen]
        exact hruns _ _ f

/-- The passes of a group in one round. -/
theorem round_outcome (group round : Nat) (ps : List LoadedPass) (place : Nat) (f : Frame β)
    (henv : f.env = env) :
    Outcome (roundJobs env group round place ps) f (runList (Frame.pass (round : Int)) f ps) := by
  induction ps generalizing place f with
  | nil => exact .nil f
  | cons p ps ih =>
      exact Outcome.seq (pass_outcome place group round p f henv) fun f' hsame =>
        ih (place + 1) f' (hsame.env.trans henv)

/-- All rounds of a group. -/
theorem group_outcome (group place : Nat) (ps : List LoadedPass) (f : Frame β)
    (henv : f.env = env) :
    Outcome (groupJobs env group place ps) f (f.group ps) := by
  have hrounds : ∀ (rs : List Nat) (f : Frame β), f.env = env →
      Outcome (rs.flatMap fun r => roundJobs env group r place ps) f
        (runList (fun f round => runList (Frame.pass round) f ps) f (rs.map Int.ofNat)) := by
    intro rs
    induction rs with
    | nil => exact fun f _ => .nil f
    | cons r rs ih =>
        intro f henv
        rw [List.flatMap_cons, List.map_cons]
        exact Outcome.seq (round_outcome group r ps place f henv) fun f' hsame =>
          ih f' (hsame.env.trans henv)
  unfold Frame.group groupJobs groupRounds
  cases ps with
  | nil => exact .nil f
  | cons p ps =>
      simp only [henv]
      split
      · exact hrounds _ f henv
      · exact .nil f

/-- Running groups performs their jobs, up to the first that fails. -/
theorem groupList_outcome (gs : List (List LoadedPass)) (group place : Nat) (f : Frame β)
    (henv : f.env = env) : Outcome (jobsFrom env group place gs) f (runList Frame.group f gs) := by
  induction gs generalizing group place f with
  | nil => exact .nil f
  | cons ps gs ih =>
      exact Outcome.seq (group_outcome group place ps f henv) fun f' hsame =>
        ih _ _ f' (hsame.env.trans henv)

/-- A frame makes the dispatches of its schedule: all of them when it succeeds, the
first few when it fails. -/
theorem groups_outcome (g : LoadedGraph) (f : Frame β) (henv : f.env = env) :
    Outcome (g.jobs env) f (runList Frame.group f (Frame.stepGroups g.passes)) :=
  groupList_outcome _ 0 0 f henv

end outcome

end EffectChain
