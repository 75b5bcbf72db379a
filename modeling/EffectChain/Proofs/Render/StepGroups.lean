import EffectChain.Proofs.Graph.Passes
import EffectChain.Proofs.Render.CleanFrame
import EffectChain.Proofs.Render.FrameProtocol

/-!
# EffectChain.Proofs.Render.StepGroups

Steps run as whole groups.

A pass that runs `n` times in every round of its group counts on from round to round: its
`i`-th run in round `k` has the number `k * n + i`.  What the runs of a frame ask for is known
before the frame starts (`LoadedGraph.timetable`), and a frame asks for all of it or, when it
fails, for the first part of it (`frame_asks`).

A frame groups passes of one step that stand next to each other, and takes the guards and the
repetition of a group from its first pass.  In the graph of a plan the groups are the passes
of the steps (`stepGroups_expand`), so that a frame runs all passes of a step, as often as the
step repeats, before it goes on to the next one (`timetable_expand`); the runs of one pass are
numbered from zero on (`numbered_timetable`).  `steps_run_whole` says this of every frame of a
plan that was compiled.
-/

namespace EffectChain

/-! ## timetables -/

/-- The pass and the iteration number of a dispatch. -/
abbrev PassRun := String × Int

/-- What is asked for by a request, if it is a dispatch. -/
def Exchange.passRun? : Exchange → Option PassRun
  | (.executePass d _, _) => some (d.pass, d.iteration)
  | _ => none

/-- The end of a frame dispatches nothing. -/
theorem Closing.silent {copies : List Request} {xs : List Exchange} {r : Option RenderError}
    (hcopies : ∀ c ∈ copies, ∃ b : BufferPair, c = b.copy) (h : Closing copies xs r) :
    xs.filterMap Exchange.passRun? = [] := by
  have hcopied : ∀ c ∈ copies, ∀ a, Exchange.passRun? (c, a) = none := by
    intro c hc a
    obtain ⟨b, rfl⟩ := hcopies c hc
    rfl
  rw [List.filterMap_eq_nil_iff]
  cases h with
  | notEnded => simp [Exchange.passRun?]
  | @notCopied done rest c r err h =>
      simp only [List.forall_mem_cons, List.forall_mem_append, List.forall_mem_map]
      exact ⟨rfl, fun c hc => hcopied c (by simp [h, hc]) _, hcopied c (by simp [h]) _, by simp⟩
  | notShown =>
      simp only [List.forall_mem_cons, List.forall_mem_append, List.forall_mem_map]
      exact ⟨rfl, fun c hc => hcopied c hc _, rfl, by simp⟩
  | shown =>
      simp only [List.forall_mem_cons, List.forall_mem_append, List.forall_mem_map]
      exact ⟨rfl, fun c hc => hcopied c hc _, rfl, by simp⟩
  | hidden =>
      simp only [List.forall_mem_cons, List.forall_mem_map]
      exact ⟨rfl, fun c hc => hcopied c hc _⟩

/-- The runs of a pass in one round of its group. -/
def passRuns (env : Env) (round : Nat) (p : LoadedPass) : List PassRun :=
  (List.range (p.runs env)).map fun i => (p.pass.id, ((round * p.runs env + i : Nat) : Int))

/-- The runs of the passes of a group in the given number of rounds. -/
def groupRuns (env : Env) (rounds : Nat) (ps : List LoadedPass) : List PassRun :=
  (List.range rounds).flatMap fun round => ps.flatMap (passRuns env round)

/-- The runs of all passes in a frame. -/
def LoadedGraph.timetable (g : LoadedGraph) (env : Env) : List PassRun :=
  (Frame.stepGroups g.passes).flatMap fun ps => groupRuns env (groupRounds env ps) ps

/-! ## what a frame asks for -/

section asked

variable {β : Type} {env : Env} {f : Frame (Scribe β)} {want more : List PassRun}

open Executor (Logs)

/-- A part of a frame asks for what it is to ask for, or for the first part of it when it
fails. -/
def Asked (want : List PassRun) (f : Frame (Scribe β)) (r : Frame (Scribe β) × Option RenderError) :
    Prop :=
  ∃ xs, Logs f.exec xs r.1.exec ∧ xs.filterMap Exchange.passRun? <+: want ∧
    (r.2 = none → f.SameSetting r.1 ∧ xs.filterMap Exchange.passRun? = want)

/-- A part that asks for nothing and fails. -/
theorem Asked.fail (want : List PassRun) (f : Frame (Scribe β)) (e : RenderError) :
    Asked want f (f, some e) :=
  ⟨[], .nil rfl rfl, List.nil_prefix, by simp⟩

/-- A part that has nothing to ask for. -/
theorem Asked.nil (f : Frame (Scribe β)) : Asked [] f (f, none) :=
  ⟨[], .nil rfl rfl, List.nil_prefix, fun _ => ⟨.refl f, rfl⟩⟩

/-- Parts ask for their dispatches one after another. -/
theorem Asked.runList {α : Type}
    {part : Frame (Scribe β) → α → Frame (Scribe β) × Option RenderError} {want : α → List PassRun}
    (as : List α) (f : Frame (Scribe β))
    (hpart : ∀ a ∈ as, ∀ f', f.SameSetting f' → Asked (want a) f' (part f' a)) :
    Asked (as.flatMap want) f (runList part f as) := by
  induction as generalizing f with
  | nil => exact .nil f
  | cons a as ih =>
      obtain ⟨xs, hlogs, hprefix, hdone⟩ := hpart a List.mem_cons_self f (.refl f)
      rw [EffectChain.runList]
      cases hone : part f a with
      | mk f₁ r =>
          rw [hone] at hlogs hdone
          rw [List.flatMap_cons]
          cases r with
          | some e => exact ⟨xs, hlogs, hprefix.trans (List.prefix_append _ _), by simp⟩
          | none =>
              obtain ⟨hsame, hall⟩ := hdone rfl
              obtain ⟨ys, hlogs', hprefix', hdone'⟩ :=
                ih f₁ fun b hb f' hf' => hpart b (List.mem_cons_of_mem _ hb) f' (hsame.trans hf')
              refine ⟨xs ++ ys, hlogs.append hlogs', ?_, fun hnone => ?_⟩
              · rw [List.filterMap_append, hall]
                exact (List.prefix_append_right_inj _).2 hprefix'
              · obtain ⟨hsame', hall'⟩ := hdone' hnone
                exact ⟨hsame.trans hsame', by rw [List.filterMap_append, hall, hall']⟩

variable [Backend β]

/-- A dispatch asks for one run of its pass. -/
theorem asked_dispatch (p : Graph.Pass) (u : Table Datum) (f : Frame (Scribe β)) (n : Int) :
    Asked [(p.id, n)] f (Frame.dispatch p u f n) := by
  have hbound := Frame.bindOutputs_logs p.id f {} p.outputs.entries
  have hsame := Frame.bindOutputs_same p.id f {} p.outputs.entries
  unfold Frame.dispatch
  split
  · exact .fail _ f _
  · split
    · next f₁ e hout =>
        rw [hout] at hbound
        exact ⟨[], hbound, List.nil_prefix, by simp⟩
    · next f₁ outputs hout =>
        rw [hout] at hbound hsame
        split
        · exact ⟨[], hbound, List.nil_prefix, by simp⟩
        · dsimp only
          split
          · next exec r hsub => exact ⟨_, hbound.concat hsub, List.prefix_refl _, by simp⟩
          · next exec hsub =>
              refine ⟨_, (hbound.concat hsub).append (Frame.commit_logs { f₁ with exec } p.outputs),
                List.prefix_refl _,
                  fun _ => ⟨hsame.trans (.trans ?_ (Frame.commit_same _ p.outputs)), rfl⟩⟩
              obtain rfl : (f₁.exec.submit _).1 = exec := congrArg Prod.fst hsub
              exact ⟨rfl, rfl, rfl, rfl, rfl, rfl⟩

/-- The runs of a pass in a round. -/
theorem asked_pass (round : Nat) (p : LoadedPass) (henv : f.env = env) :
    Asked (passRuns env round p) f (Frame.pass (round : Int) f p) := by
  subst henv
  unfold passRuns Frame.pass LoadedPass.runs LoadedPass.uniforms
  dsimp only
  generalize p.times (f.env.union (p.pass.uniforms.map fun _ v => v.eval f.env)) = times
  cases times with
  | error e => exact .fail _ f e
  | ok n =>
      simp only
      split
      · exact .fail _ f _
      · have hruns : ((List.range n.toNat).map fun i =>
            (p.pass.id, ((round * n.toNat + i : Nat) : Int))) =
            ((Frame.rounds n).map ((round : Int) * n + ·)).flatMap fun i => [(p.pass.id, i)] := by
          rw [Frame.rounds, List.map_map, List.flatMap_map, ← List.map_eq_flatMap]
          refine List.map_congr_left fun i hi => ?_
          -- a pass that runs has a number of runs that is not negative
          have hn : (n.toNat : Int) = n := by
            have := List.mem_range.1 hi
            omega
          simp [hn]
        rw [hruns]
        exact .runList _ f fun i _ f' _ => asked_dispatch p.pass _ f' i

/-- All rounds of a group. -/
theorem asked_group (ps : List LoadedPass) (henv : f.env = env) :
    Asked (groupRuns env (groupRounds env ps) ps) f (f.group ps) := by
  unfold Frame.group groupRounds
  cases ps with
  | nil => exact .nil f
  | cons p ps =>
      simp only [henv]
      split
      · have hrounds : groupRuns env (p.pass.repetition.inFrame env).toNat (p :: ps) =
            (Frame.rounds (p.pass.repetition.inFrame env)).flatMap fun round : Int =>
              (p :: ps).flatMap (passRuns env round.toNat) := by
          rw [Frame.rounds, List.flatMap_map]
          rfl
        rw [hrounds]
        refine .runList _ f fun round hround f' hf' => .runList _ f' fun q _ f'' hf'' => ?_
        obtain ⟨k, -, rfl⟩ := List.mem_map.1 hround
        exact asked_pass k q (hf''.env.trans (hf'.env.trans henv))
      · exact .nil f

/-- A frame asks for the dispatches of its timetable: for all of them when it succeeds, for the
first ones when it fails. -/
theorem frame_asks {e : Executor (Scribe β)} {g : LoadedGraph} (hcurrent : e.current = some g)
    (state : FrameState) :
    ∃ xs, (e.frame state).1.backend.log = e.backend.log ++ xs ∧
      xs.filterMap Exchange.passRun? <+: g.timetable (e.frameState state).env ∧
      ((e.frame state).2 = none →
        xs.filterMap Exchange.passRun? = g.timetable (e.frameState state).env) := by
  cases hdisposed : e.disposed with
  | true =>
      have hnothing : e.frame state = (e, some .disposed) := by simp [Executor.frame, hdisposed]
      rw [hnothing]
      exact ⟨[], by simp, List.nil_prefix, by simp⟩
  | false =>
      cases hbegin : e.submit (.beginFrame (e.frameState state)) with
      | mk e₁ a =>
          have hbegun := Logs.submit hbegin
          cases a with
          | some a =>
              rw [Executor.frame_notBegun hdisposed hcurrent hbegin]
              exact ⟨_, hbegun.log, List.nil_prefix, by simp⟩
          | none =>
              rw [Executor.frame_eq hdisposed hcurrent hbegin]
              obtain ⟨xs, hlogs, hprefix, hall⟩ : Asked (g.timetable (e.frameState state).env)
                  (Frame.opened e₁ g (e.frameState state))
                  (runList Frame.group (Frame.opened e₁ g (e.frameState state))
                      (Frame.stepGroups g.passes)) :=
                .runList _ _ fun ps _ f' hf' => asked_group ps hf'.env
              cases hrun :
                  runList Frame.group (Frame.opened e₁ g (e.frameState state))
                      (Frame.stepGroups g.passes) with
              | mk f r =>
                  rw [hrun] at hlogs hall
                  have hlogs := hbegun.append hlogs
                  have hbefore : ([(Request.beginFrame (e.frameState state), none)] ++ xs).filterMap
                      Exchange.passRun? =
                      xs.filterMap Exchange.passRun? := rfl
                  cases r with
                  | some err =>
                      obtain ⟨a, err', herr, hended⟩ := f.abort_logs err
                      have hafter : [(Request.endFrame, a)].filterMap Exchange.passRun? = [] := rfl
                      refine ⟨_, (hlogs.append hended).log, ?_, fun hnone => ?_⟩
                      · rwa [List.filterMap_append, hbefore, hafter, List.append_nil]
                      · rw [Frame.close_some, herr] at hnone
                        cases hnone
                  | none =>
                      rw [Frame.close_none]
                      cases hfinish : f.finish with
                      | mk e₂ r =>
                          obtain ⟨closing, hclosing, hlog, -⟩ := Frame.finish_logs hfinish
                          have hafter := hclosing.silent fun c hc => by
                            obtain ⟨b, -, rfl⟩ := List.mem_map.1 hc
                            exact ⟨b, rfl⟩
                          have hwanted : ([(Request.beginFrame (e.frameState state), none)] ++ xs ++
                              closing).filterMap
                              Exchange.passRun? = g.timetable (e.frameState state).env := by
                            rw [List.filterMap_append, hbefore, hafter, List.append_nil,
                              (hall rfl).2]
                          refine ⟨_, ?_, hwanted ▸ List.prefix_refl _, fun _ => hwanted⟩
                          rw [hlog, hlogs.log, List.append_assoc]

end asked

open EffectChain.Graph

/-! ## lists in blocks -/

/-- A list whose images stand in blocks stands in blocks itself. -/
theorem exists_blocks {α β : Type} {f : α → β} (blocks : List (List β)) :
    ∀ {as : List α}, as.map f = blocks.flatten → ∃ ls :
    List (List α), ls.flatten = as ∧ ls.map (·.map f) = blocks := by
  induction blocks with
  | nil => exact fun h => ⟨[], (List.map_eq_nil_iff.1 h).symm, rfl⟩
  | cons b blocks ih =>
      intro as h
      obtain ⟨as₁, as₂, rfl, rfl, hrest⟩ := List.map_eq_append_iff.1 h
      obtain ⟨ls, rfl, rfl⟩ := ih hrest
      exact ⟨as₁ :: ls, rfl, rfl⟩

/-- What is kept of a list in blocks is kept of one block, if nothing else is kept. -/
theorem filter_flatMap_eq {α β : Type} {f : α → List β} {P : β → Bool} {as : List α}
    (hnodup : as.Nodup) {a : α} (ha : a ∈ as) (hothers : ∀ b ∈ as, b ≠ a → ∀ x ∈ f b, P x = false) :
    (as.flatMap f).filter P = (f a).filter P := by
  obtain ⟨before, after, rfl⟩ := List.append_of_mem ha
  have hnone : ∀ bs : List α, (∀ b ∈ bs, b ∈ before ++ a :: after ∧ b ≠ a) →
      (bs.flatMap f).filter P = [] := by
    intro bs hbs
    refine List.filter_eq_nil_iff.2 fun x hx => ?_
    obtain ⟨b, hb, hx⟩ := List.mem_flatMap.1 hx
    simp [hothers b (hbs b hb).1 (hbs b hb).2 x hx]
  obtain ⟨-, hafter, hdisjoint⟩ := List.nodup_append.1 hnodup
  rw [List.flatMap_append, List.flatMap_cons, List.filter_append, List.filter_append, hnone before,
    hnone after, List.nil_append, List.append_nil]
  · exact fun b hb => ⟨by simp [hb], fun heq => (List.nodup_cons.1 hafter).1 (heq ▸ hb)⟩
  · exact fun b hb => ⟨by simp [hb], hdisjoint b hb a List.mem_cons_self⟩

/-- Rounds of equal length, numbered on. -/
theorem flatMap_range_mul (rounds n : Nat) :
    ((List.range rounds).flatMap fun k => (List.range n).map fun i => k * n + i) =
      List.range (rounds * n) := by
  induction rounds with
  | zero => simp
  | succ k ih =>
      rw [List.range_succ, List.flatMap_append, ih, List.flatMap_singleton, Nat.succ_mul,
        List.range_add]

theorem flatMap_eq_of_map_eq {α β γ δ : Type} {f : α → γ} {g : β → γ} {F : α → List δ}
    {G : β → List δ} {as : List α} :
    ∀ {bs : List β}, as.map f = bs.map g → (∀ a ∈ as, ∀ b ∈ bs, f a = g b → F a = G b) →
      as.flatMap F = bs.flatMap G := by
  induction as with
  | nil =>
      intro bs h _
      obtain rfl : bs = [] := by simpa using h.symm
      rfl
  | cons a as ih =>
      intro bs h hsame
      cases bs with
      | nil => simp at h
      | cons b bs =>
          obtain ⟨hfirst, hrest⟩ := List.cons.inj h
          rw [List.flatMap_cons, List.flatMap_cons,
            hsame a List.mem_cons_self b List.mem_cons_self hfirst, ih hrest fun a ha b hb =>
              hsame a (List.mem_cons_of_mem _ ha) b (List.mem_cons_of_mem _ hb)]

/-! ## groups -/

/-- Passes that stand in blocks of one step each, every step with one block, are grouped by
these blocks. -/
theorem stepGroups_of_blocks {passes : List LoadedPass} {blocks : List (List Graph.Pass)}
    (h : passes.map (·.pass) = blocks.flatten) (hne : [] ∉ blocks)
    (hsame : ∀ b ∈ blocks, ∀ q ∈ b, ∀ q' ∈ b, q.step = q'.step)
    (hapart : blocks.Pairwise fun b b' => ∀ q ∈ b, ∀ q' ∈ b', q.step ≠ q'.step) :
    (Frame.stepGroups passes).map (·.map (·.pass)) = blocks := by
  obtain ⟨ls, rfl, rfl⟩ := exists_blocks blocks h
  have hempty : ∀ ps ∈ ls, ps ≠ [] := by
    rintro ps hps rfl
    exact hne (List.mem_map_of_mem hps)
  rw [Frame.stepGroups, List.splitBy_flatten (fun hnil => hempty [] hnil rfl)]
  · intro ps hps
    refine (List.pairwise_of_forall_mem_list fun a ha b hb => ?_).isChain
    exact decide_eq_true
      (hsame _ (List.mem_map_of_mem hps) _ (List.mem_map_of_mem ha) _ (List.mem_map_of_mem hb))
  · refine ((List.pairwise_map.1 hapart).imp_of_mem fun {a b} ha hb hne => ?_).isChain
    refine ⟨hempty a ha, hempty b hb, decide_eq_false ?_⟩
    exact hne _ (List.mem_map_of_mem (List.getLast_mem _)) _ (List.mem_map_of_mem (List.head_mem _))

/-- A pass of a graph that is ready was read. -/
theorem LoadedGraph.Ready.read_of_mem {g : LoadedGraph} (h : g.Ready) {l : LoadedPass}
    (hl : l ∈ g.passes) :
    LoadedPass.read l.pass = .ok l := by
  have hall : ∀ (qs : List Graph.Pass) (ls : List LoadedPass), qs.mapM LoadedPass.read = .ok ls →
      ls.map (·.pass) = qs → ∀ l ∈ ls, LoadedPass.read l.pass = .ok l := by
    intro qs
    induction qs with
    | nil =>
        intro ls _ hmap l hl
        simp [List.map_eq_nil_iff.1 hmap] at hl
    | cons q qs ih =>
        intro ls hls hmap l hl
        simp only [List.mapM_cons, bind, Except.bind, pure, Except.pure] at hls
        cases hq : LoadedPass.read q with
        | error e => simp [hq] at hls
        | ok l₁ =>
            cases hqs : qs.mapM LoadedPass.read with
            | error e => simp [hq, hqs] at hls
            | ok ls₁ =>
                simp only [hq, hqs, Except.ok.injEq] at hls
                obtain rfl := hls
                obtain ⟨hfirst, hrest⟩ := List.cons.inj hmap
                rcases List.mem_cons.1 hl with rfl | hl
                · exact (congrArg LoadedPass.read hfirst).trans hq
                · exact ih _ hqs hrest l hl
  exact hall _ _ h.passes h.map_pass l hl

/-! ## the runs of a step -/

/-- How often a pass of a graph runs in a round of its step. -/
def Graph.Pass.runs (q : Graph.Pass) (env : Env) : Nat :=
  match LoadedPass.read q with
  | .ok p => p.runs env
  | .error _ => 0

/-- How often a step runs in a frame: not at all when a guard does not hold. -/
def Step.rounds (s : Step) (env : Env) : Nat :=
  if s.guards.all fun g => (g.eval env).truthy then (s.repetition.inFrame env).toNat else 0

/-- The runs of the passes of a step: in every round all of them one after another, each as
often as it runs in a round. -/
def Step.timetable (s : Step) (env : Env) (passes : List Graph.Pass) : List PassRun :=
  (List.range (s.rounds env)).flatMap fun round => passes.flatMap fun q =>
    (List.range (q.runs env)).map fun i => (q.id, ((round * q.runs env + i : Nat) : Int))

/-- A pass without conditions runs once. -/
theorem Graph.Pass.runs_eq_one {q : Graph.Pass} (h : q.skipIf = "" ∧ q.runIf = "" ∧ q.count = "")
    (env : Env) :
    q.runs env = 1 := by
  obtain ⟨hskip, hrun, hcount⟩ := h
  simp only [runs, LoadedPass.read, Condition.read, hskip, hrun, hcount]
  rfl

/-- Passes without conditions run once in every round of their step. -/
theorem Step.timetable_eq (s : Step) (env : Env) {passes : List Graph.Pass}
    (h : ∀ q ∈ passes, q.skipIf = "" ∧ q.runIf = "" ∧ q.count = "") :
    s.timetable env passes = (List.range (s.rounds env)).flatMap fun round : Nat =>
      (passes.map (·.id)).map fun id => (id, (round : Int)) := by
  refine List.flatMap_congr fun round _ => ?_
  rw [List.map_map, List.map_eq_flatMap]
  refine List.flatMap_congr fun q hq => ?_
  rw [q.runs_eq_one (h q hq)]
  simp

/-- The runs of the steps of a plan, in their order. -/
def Plan.timetable (p : Plan) (g : Graph) (env : Env) : List PassRun :=
  p.steps.flatMap fun s => s.timetable env (g.passesOf s)

/-- The passes of a step in a graph: there is one, the first one repeats as the step does, and
all of them belong to the step by their names and carry its guards. -/
structure Step.Leads (s : Step) (own : List Graph.Pass) : Prop where
  first : ∃ q rest, own = q :: rest ∧ q.repetition = s.repetition
  mem : ∀ q ∈ own, q.step = s.temp ∧ q.guards = s.guards ∧ Private s.temp q.id
  nodup : (own.map (·.id)).Nodup

namespace Plan

variable {p : Plan} {lookup : String → Option Descriptor} {overrides : List ShaderOverride}
    {s : Step}

/-- Without errors every step of effects that have passes leads its passes. -/
theorem leads_of_clean (hnodup : (p.steps.map Step.temp).Nodup)
    (hlookup : ∀ op d, lookup op = some d → d.passes ≠ [])
    (hclean : (p.expand lookup overrides).errors = []) (hs : s ∈ p.steps) :
    s.Leads ((p.expand lookup overrides).passesOf s) := by
  obtain ⟨d, draft, made, copies, hd, hown, hlength, hmade, hcopies⟩ :=
    known_of_clean hnodup hclean hs
  have hids : made.map (·.id) = (List.range d.passes.length).map (passId s) := by
    refine List.ext_getElem (by simp [hlength]) fun i hi hi' => ?_
    obtain ⟨e, -, hq⟩ := hmade i _ (List.getElem?_eq_getElem (by simpa using hi))
    simp [hq.id]
  have hblit : ∀ i, nodeId s.temp ++ "_blit" ≠ passId s i := by
    intro i h
    have hlist := congrArg String.toList h
    simp [passId] at hlist
  rw [hown]
  refine ⟨?_, fun q hq => ?_, ?_⟩
  · cases made with
    | nil => exact absurd (List.length_eq_zero_iff.1 hlength.symm) (hlookup _ _ hd)
    | cons q rest =>
        obtain ⟨e, -, hq⟩ := hmade 0 q rfl
        exact ⟨q, rest ++ copies, rfl, hq.repetition⟩
  · rcases List.mem_append.1 hq with hq | hq
    · obtain ⟨i, hi⟩ := List.getElem?_of_mem hq
      obtain ⟨e, -, hq⟩ := hmade i q hi
      refine ⟨hq.step, hq.guards, "pass_" ++ toString i, ?_⟩
      rw [hq.id, passId, String.append_assoc, String.append_assoc]
      rfl
    · rcases hcopies with rfl | ⟨out, image, o, -, rfl⟩
      · simp at hq
      · obtain rfl := List.mem_singleton.1 hq
        exact ⟨rfl, rfl, "blit", by rw [String.append_assoc]; rfl⟩
  · have hmade : (made.map (·.id)).Nodup := by
      rw [hids]
      exact List.nodup_range.map (passId_injective s)
    rcases hcopies with rfl | ⟨out, image, o, -, rfl⟩
    · simpa using hmade
    · rw [List.map_append, List.nodup_append]
      refine ⟨hmade, by simp, ?_⟩
      rintro a ha b hb rfl
      obtain rfl : a = nodeId s.temp ++ "_blit" := by simpa [Expander.copy] using hb
      rw [hids] at ha
      obtain ⟨i, -, hi⟩ := List.mem_map.1 ha
      exact hblit i hi.symm

/-- The groups of a frame are the passes of the steps, in the order of the plan. -/
theorem stepGroups_expand (hnodup : (p.steps.map Step.temp).Nodup)
    (hleads : ∀ s ∈ p.steps, s.Leads ((p.expand lookup overrides).passesOf s))
    {passes : List LoadedPass}
    (hpasses : passes.map (·.pass) = (p.expand lookup overrides).passes) :
    (Frame.stepGroups passes).map (·.map (·.pass)) =
      p.steps.map (p.expand lookup overrides).passesOf := by
  refine stepGroups_of_blocks ?_ ?_ ?_ ?_
  · rw [hpasses, passes_eq_flatMap hnodup]
    rfl
  · intro hnil
    obtain ⟨s, hs, hempty⟩ := List.mem_map.1 hnil
    obtain ⟨q, rest, hfirst, -⟩ := (hleads s hs).first
    simp [hempty] at hfirst
  · simp only [List.forall_mem_map]
    intro s hs q hq q' hq'
    rw [((hleads s hs).mem q hq).1, ((hleads s hs).mem q' hq').1]
  · refine List.pairwise_map.2
      ((List.pairwise_map.1 hnodup).imp_of_mem fun hs hs' hne q hq q' hq' => ?_)
    rw [((hleads _ hs).mem q hq).1, ((hleads _ hs').mem q' hq').1]
    exact fun h => hne (Int.ofNat.inj h)

/-- A frame runs the passes of the steps by the timetable of the plan. -/
theorem timetable_expand (hnodup : (p.steps.map Step.temp).Nodup)
    (hleads : ∀ s ∈ p.steps, s.Leads ((p.expand lookup overrides).passesOf s)) {g : LoadedGraph}
    (hready : g.Ready) (hgraph : g.graph = p.expand lookup overrides) (env : Env) :
    g.timetable env = p.timetable g.graph env := by
  rw [LoadedGraph.timetable, Plan.timetable, hgraph]
  refine flatMap_eq_of_map_eq (stepGroups_expand hnodup hleads (hgraph ▸ hready.map_pass))
    fun ps hps s hs heq => ?_
  obtain ⟨⟨q, rest, hown, hrepetition⟩, hmem, -⟩ := hleads s hs
  have hguards := (hmem q (by simp [hown])).2.1
  have hrounds : groupRounds env ps = s.rounds env := by
    cases ps with
    | nil => simp [hown] at heq
    | cons l ps =>
        obtain ⟨rfl, -⟩ := List.cons.inj (heq.trans hown)
        simp only [groupRounds, Step.rounds]
        rw [hguards, hrepetition]
  rw [groupRuns, Step.timetable, hrounds, ← heq]
  refine List.flatMap_congr fun round _ => ?_
  rw [List.flatMap_map]
  refine List.flatMap_congr fun l hl => ?_
  have hread : LoadedPass.read l.pass = .ok l := by
    refine hready.read_of_mem ?_
    rw [← List.flatten_splitBy (fun a b : LoadedPass => decide (a.pass.step = b.pass.step))
      g.passes]
    exact List.mem_flatten_of_mem hps hl
  simp only [passRuns, Graph.Pass.runs, hread]

/-- The runs of one pass are numbered from zero on, round after round. -/
theorem numbered_timetable (hnodup : (p.steps.map Step.temp).Nodup) {g : Graph}
    (hleads : ∀ s ∈ p.steps, s.Leads (g.passesOf s)) (env : Env) (hs : s ∈ p.steps) {q : Graph.Pass}
    (hq : q ∈ g.passesOf s) :
    ((p.timetable g env).filter (·.1 = q.id)).map (·.2) =
      (List.range (s.rounds env * q.runs env)).map Int.ofNat := by
  have hprivate : ∀ s' ∈ p.steps, ∀ x ∈ s'.timetable env (g.passesOf s'), Private s'.temp x.1 := by
    intro s' hs' x hx
    simp only [Step.timetable, List.mem_flatMap, List.mem_map] at hx
    obtain ⟨-, -, q', hq', -, -, rfl⟩ := hx
    exact ((hleads s' hs').mem q' hq').2.2
  have hstep : (p.timetable g env).filter (·.1 = q.id) = (s.timetable env (g.passesOf s)).filter
      (·.1 = q.id) := by
    refine filter_flatMap_eq (hnodup.of_map) hs fun s' hs' hne x hx => ?_
    refine decide_eq_false fun heq => hne ?_
    have htemp := (hprivate s' hs' x hx).inj (heq ▸ ((hleads s hs).mem q hq).2.2)
    exact List.inj_on_of_nodup_map hnodup hs' hs htemp
  have hpass : ∀ round, ((g.passesOf s).flatMap fun q' => (List.range (q'.runs env)).map fun i =>
        (q'.id, ((round * q'.runs env + i : Nat) : Int))).filter (·.1 = q.id) =
      (List.range (q.runs env)).map fun i => (q.id, ((round * q.runs env + i : Nat) : Int)) := by
    intro round
    rw [filter_flatMap_eq (hleads s hs).nodup.of_map hq, List.filter_eq_self.2 (by simp)]
    intro q' hq' hne x hx
    obtain ⟨i, -, rfl⟩ := List.mem_map.1 hx
    exact decide_eq_false fun heq => hne (List.inj_on_of_nodup_map (hleads s hs).nodup hq' hq heq)
  rw [hstep, Step.timetable, List.filter_flatMap, ← flatMap_range_mul, List.map_flatMap,
    List.map_flatMap]
  refine List.flatMap_congr fun round _ => ?_
  rw [hpass, List.map_map, List.map_map]
  rfl

end Plan

/-- An effect without a fault has passes. -/
theorem Descriptor.passes_ne_nil {d : Descriptor} (h : d.fault? = none) : d.passes ≠ [] := by
  intro hnil
  unfold fault? at h
  split at h
  · simp at h
  · simp [hnil] at h

/-- Steps run as whole groups.  In the graph of a plan that is compiled, over effects of
catalog files and without errors, the passes are those of the steps in the order of the plan,
and they carry the guards of their steps; these are the groups of a frame.  So every frame
runs the steps one after another, each whose guards hold as often as it repeats, and in every
round all of its passes; a frame that fails ends early.  The runs of a pass in a frame are
numbered from zero on, without gaps. -/
theorem steps_run_whole {β : Type} [Backend β] {registry : Registry} (hr : registry.ops.Built)
    {source : Bytes} {options : Options} {p : Plan}
    (h : Plan.compile source registry options = .ok p) {lookup : String → Option Descriptor}
    (hlookup : ∀ op d, lookup op = some d →
      ∃ text origin file, CatalogFile.decode text origin = .ok file ∧ d ∈ file.effects)
    {overrides : List ShaderOverride} (hclean : (p.expand lookup overrides).errors = [])
    {e : Executor (Scribe β)} (he : e.Reachable) {g : LoadedGraph} (hg : e.current = some g)
    (hgraph : g.graph = p.expand lookup overrides) (state : FrameState) :
    g.graph.passes = p.steps.flatMap g.graph.passesOf ∧
      (∀ s ∈ p.steps, g.graph.passesOf s ≠ [] ∧ ∀ q ∈ g.graph.passesOf s, q.guards = s.guards) ∧
      (Frame.stepGroups g.passes).map (·.map (·.pass)) = p.steps.map g.graph.passesOf ∧
      ∃ xs, (e.frame state).1.backend.log = e.backend.log ++ xs ∧
        xs.filterMap Exchange.passRun? <+: p.timetable g.graph (e.frameState state).env ∧
        ((e.frame state).2 = none →
          xs.filterMap Exchange.passRun? = p.timetable g.graph (e.frameState state).env) ∧
        ∀ q ∈ g.graph.passes, ∃ n,
          ((xs.filterMap Exchange.passRun?).filter (·.1 = q.id)).map (·.2) =
            (List.range n).map Int.ofNat := by
  obtain ⟨roots, hforest⟩ := (Plan.linked_compile hr h).forest
  have hnodup : (p.steps.map Step.temp).Nodup := hforest.temps ▸ List.nodup_range'
  have hpasses : ∀ op d, lookup op = some d → d.passes ≠ [] := by
    intro op d hd
    obtain ⟨text, origin, file, hfile, hmem⟩ := hlookup op d hd
    exact Descriptor.passes_ne_nil (CatalogFile.read_of_decode hfile hmem).1
  have hleads : ∀ s ∈ p.steps, s.Leads ((p.expand lookup overrides).passesOf s) :=
    fun s hs => Plan.leads_of_clean hnodup hpasses hclean hs
  have hready := (Executor.tidied_of_reachable he).current g hg
  have hsteps : g.graph.passes = p.steps.flatMap g.graph.passesOf :=
    hgraph ▸ Plan.passes_eq_flatMap hnodup lookup overrides
  obtain ⟨xs, hlog, hasked, hall⟩ := frame_asks hg state
  rw [Plan.timetable_expand hnodup hleads hready hgraph] at hasked hall
  refine ⟨hsteps, fun s hs => ?_, ?_, xs, hlog, hasked, hall, fun q hq => ?_⟩
  · obtain ⟨⟨q, rest, hown, -⟩, hmem, -⟩ := hgraph ▸ hleads s hs
    exact ⟨by simp [hown], fun q hq => (hmem q hq).2.1⟩
  · rw [hgraph]
    exact Plan.stepGroups_expand hnodup hleads (hgraph ▸ hready.map_pass)
  · rw [hsteps] at hq
    obtain ⟨s, hs, hq⟩ := List.mem_flatMap.1 hq
    have hnumbered :=
      Plan.numbered_timetable hnodup (hgraph ▸ hleads) (e.frameState state).env hs hq
    -- the first part of the runs of the pass
    have hfirst := (hasked.filter (·.1 = q.id)).map (·.2)
    rw [hnumbered, List.prefix_iff_eq_take, ← List.map_take, List.take_range] at hfirst
    exact ⟨_, hfirst⟩

/-! ## a pair of passes -/

def flats : Registry where
  ops := { specs := .ofList [("b.f", { name := "b.f" })], starters := ["b.f"] }

theorem flats_built : flats.ops.Built := by
  have hflat : ({} : Operations).register "b.f" [] = .ok _ := rfl
  exact .markStarters (.register .empty hflat) ["b.f"]

/-- An image under a guard that is shown as often as its number says, and one that is shown
instead when the guard does not hold. -/
def flatsSource : Bytes :=
  .ofString
    "search b if frame \x7b loop frame \x7b b.f().out(o0) \x7d \x7d else \x7b b.f().out(o1) \x7d"

def flatsTokens : List Token :=
  let token (col : Nat) (kind : TokenKind) (word : String) : Token :=
    ⟨kind, Bytes.ofString word, ⟨1, col⟩⟩
  let flat (col : Nat) (surface : String) : List Token :=
    [token col .identifier "b", token (col + 1) .dot ".", token (col + 2) .identifier "f",
      token (col + 3) .lparen "(", token (col + 4) .rparen ")", token (col + 5) .dot ".",
      token (col + 6) .identifier "out", token (col + 9) .lparen "(",
      token (col + 10) .surface surface, token (col + 12) .rparen ")"]
  [token 1 .keyword "search", token 8 .identifier "b", token 10 .keyword "if",
      token 13 .identifier "frame", token 19 .lbrace "\x7b", token 21 .keyword "loop",
        token 26 .identifier "frame", token 32 .lbrace "\x7b"] ++
    flat 34 "o0" ++ [token 48 .rbrace "\x7d", token 50 .rbrace "\x7d", token 52 .keyword "else",
      token 57 .lbrace "\x7b"] ++ flat 59 "o1" ++ [token 73 .rbrace "\x7d", token 74 .endOfInput ""]

def flatsSpace : NamespaceRef :=
  { name := "b", path := ["b"], explicit := true, source := .qualified, resolved := true,
    search := ["b"] }

def flatsProgram : Program where
  search := ["b"]
  statements :=
    let flat (col : Nat) (surface : Surface) : Stmt :=
      .run { calls := [{ name := "f", ns := flatsSpace, pos := ⟨1, col⟩ }]
             out := some (.surface surface ⟨1, col + 10⟩)
             pos := ⟨1, col⟩ } ⟨1, col⟩
    let shown : Stmt := .repeated (some (.ident "frame" ⟨1, 26⟩)) [flat 34 ⟨.output, 0⟩] ⟨1, 21⟩
    [.choose [⟨.ident "frame" ⟨1, 13⟩, [shown], ⟨1, 10⟩⟩] (some [flat 59 ⟨.output, 1⟩]) ⟨1, 10⟩]

/-- The step that is shown, in some number of rounds. -/
def flatsShown : Step :=
  { op := "b.f", temp := 0, ns := flatsSpace, out := some ⟨.output, 0⟩,
    guards := [.ofState "frame"], repetition := ⟨1, some (.ofState "frame")⟩, pos := ⟨1, 34⟩ }

/-- The step that is shown instead. -/
def flatsOther : Step :=
  { op := "b.f", temp := 1, ns := flatsSpace, out := some ⟨.output, 1⟩,
    guards := [(Dynamic.ofState "frame").not], pos := ⟨1, 59⟩ }

def flatsPlan : Plan where
  search := ["b"]
  steps := [flatsShown, flatsOther]

theorem flats_compile : Plan.compile flatsSource flats {} = .ok flatsPlan := by
  have hscan : Token.scan flatsSource = .ok flatsTokens := by
    rw [show flatsSource = _ from Bytes.ofString_ofList _]
    decide +kernel
  have hparse : Program.ofTokens {} flatsTokens = .ok flatsProgram := by cbv
  exact Plan.compile_of_stages hscan hparse rfl

/-- A catalog file with one effect, of two passes. -/
def pairText : String :=
  "\x7bnamespace: b, effects: [\x7bname: f, programs: \x7bm: \x7b\x7d\x7d, passes: [" ++
    "\x7bprogram: m, outputs: \x7bo: outputTex\x7d\x7d, " ++
    "\x7bprogram: m, outputs: \x7bo: outputTex\x7d\x7d]\x7d]\x7d"

def pairCatalog : String → Option Descriptor := soloCatalog pairText

/-- The text is read by the characters of its three literals. -/
theorem pair_decoded : ∀ op d, pairCatalog op = some d →
    ∃ text origin file, CatalogFile.decode text origin = .ok file ∧ d ∈ file.effects := by
  have hchars : pairText.toList = _ := String.toList_append.trans
    (congrArg₂ (· ++ ·) (toList_append_ofList _ _) String.toList_ofList)
  refine soloCatalog_decoded ?_
  rw [soloEffect, Document.read?, hchars]
  decide +kernel

def flatsGraph : Graph := flatsPlan.expand pairCatalog

def flatsStart : Executor (Scribe Canvas) where
  backend := (runList Scribe.submit { inner := {} } [.init, .resize 64 32]).1
  width := 64
  height := 32

def flatsLoaded : Executor (Scribe Canvas) := (flatsStart.load flatsGraph none).1

/-- What the file says about its effect, and what the renderer makes of it. -/
theorem flats_facts : flatsGraph.errors = [] ∧ (flatsStart.load flatsGraph none).2 = none ∧
    (flatsGraph.passesOf flatsShown).map (·.id) = ["node_0_pass_0", "node_0_pass_1"] ∧
    (flatsGraph.passesOf flatsOther).map (·.id) = ["node_1_pass_0", "node_1_pass_1"] ∧
    ∀ q ∈ flatsGraph.passes, q.skipIf = "" ∧ q.runIf = "" ∧ q.count = "" := by
  have hchars : pairText.toList = _ := String.toList_append.trans
    (congrArg₂ (· ++ ·) (toList_append_ofList _ _) String.toList_ofList)
  obtain ⟨d, hd⟩ : ∃ d, soloEffect pairText = d := ⟨_, rfl⟩
  rw [flatsGraph, pairCatalog, soloCatalog_eq hd, ← hd, soloEffect, Document.read?, hchars]
  decide +kernel

/-- In every round both passes of a step run, and no pass of the other step runs between them.
How many rounds there are is up to the frame. -/
theorem flats_run_whole : flats.ops.Built ∧ Plan.compile flatsSource flats {} = .ok flatsPlan ∧
    (∀ op d, pairCatalog op = some d →
      ∃ text origin file, CatalogFile.decode text origin = .ok file ∧ d ∈ file.effects) ∧
    (flatsPlan.expand pairCatalog).errors = [] ∧ flatsLoaded.Reachable ∧
    flatsLoaded.current = some (flatsLoaded.current.getD default) ∧
    (flatsLoaded.current.getD default).graph = flatsPlan.expand pairCatalog ∧
    (Frame.stepGroups (flatsLoaded.current.getD default).passes).map (·.map (·.pass.id)) =
      [["node_0_pass_0", "node_0_pass_1"], ["node_1_pass_0", "node_1_pass_1"]] ∧
    ∃ xs, (flatsLoaded.frame {}).1.backend.log = flatsLoaded.backend.log ++ xs ∧
      ((flatsLoaded.frame {}).2 = none → xs.filterMap Exchange.passRun? =
        (List.range (flatsShown.rounds (flatsLoaded.frameState {}).env)).flatMap
            (fun n : Nat => [("node_0_pass_0", (n : Int)), ("node_0_pass_1", (n : Int))]) ++
          (List.range (flatsOther.rounds (flatsLoaded.frameState {}).env)).flatMap
            fun n : Nat => [("node_1_pass_0", (n : Int)), ("node_1_pass_1", (n : Int))]) := by
  obtain ⟨hclean, hnone, hshown, hother, hplain⟩ := flats_facts
  -- the renderer is opened by its equation, so that nothing is run again
  have hstate : (flatsStart.load flatsGraph none).1 = flatsLoaded := by rw [flatsLoaded]
  have hstart : Executor.start ({ inner := {} } : Scribe Canvas) 64 32 = (_, .ok flatsStart) := rfl
  have hreach : flatsLoaded.Reachable := by
    rw [flatsLoaded]
    exact .load (.start hstart) flatsGraph none
  have hload := Executor.load_eq hstate hnone
  obtain ⟨passes, hcurrent⟩ := Executor.load_current hload
  have hg : flatsLoaded.current = some (flatsLoaded.current.getD default) := by
    rw [hcurrent, Option.getD_some]
  have hgraph : (flatsLoaded.current.getD default).graph = flatsPlan.expand pairCatalog := by
    rw [hcurrent, Option.getD_some, flatsGraph]
  obtain ⟨-, -, hgroups, xs, hlog, -, hall, -⟩ :=
    steps_run_whole flats_built flats_compile pair_decoded hclean hreach hg hgraph {}
  rw [hgraph] at hall hgroups
  have hids := congrArg (List.map (List.map (·.id))) hgroups
  simp only [List.map_map, Function.comp_def] at hids
  refine ⟨flats_built, flats_compile, pair_decoded, hclean, hreach, hg, hgraph, ?_, xs, hlog,
    fun hframe => ?_⟩
  · rw [hids]
    exact congrArg₂ (fun a b => [a, b]) hshown hother
  · have hown : ∀ s, ∀ q ∈ flatsGraph.passesOf s, q.skipIf = "" ∧ q.runIf = "" ∧ q.count = "" := by
      intro s q hq
      rw [passesOf] at hq
      exact hplain q (List.mem_of_mem_filter hq)
    have htimetable : flatsPlan.timetable flatsGraph (flatsLoaded.frameState {}).env =
        flatsShown.timetable (flatsLoaded.frameState {}).env (flatsGraph.passesOf flatsShown) ++
          flatsOther.timetable (flatsLoaded.frameState {}).env
              (flatsGraph.passesOf flatsOther) := by
      rw [Plan.timetable, flatsPlan, List.flatMap_cons, List.flatMap_singleton]
    rw [hall hframe]
    refine htimetable.trans ?_
    rw [flatsShown.timetable_eq _ (hown _), hshown, flatsOther.timetable_eq _ (hown _), hother]
    rfl

end EffectChain
