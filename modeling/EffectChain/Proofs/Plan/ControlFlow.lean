import EffectChain.Proofs.Plan.Arrivals
import EffectChain.Proofs.Plan.Guarding
import EffectChain.Proofs.Plan.Lowering

/-!
# EffectChain.Proofs.Plan.ControlFlow

What planning makes of conditionals, loops and jumps means the same in every frame:
a step runs as often as the program comes to its chain statement, up to the limit
(`plan_refines_run`).

The plan is compared with a run by way of the outline: its sections are the
outline's, and the tally of a run is the outline's tally.

A jump that is taken in every frame ends its block: what follows is not lowered.  One under a
condition that is computed in every frame does not, and the condition is lost on what follows.

* `Surroundings.Escapes.guards` — a jump under no condition but those of a block ends the block;
* `skipped_excluded_iff` — the statements behind any other are lowered as they are without it:
  their steps are in the plan and stop for the jump only if they do on their own.
-/

namespace EffectChain

/-! ## the steps of a chain statement -/

/-- The steps a plan has for a chain statement: those of its chain, all repeated
alike, and none when the statement cannot be reached. -/
def Yields (k : Checker) (r : Chain × Bool) (own : List Step) : Prop :=
  if r.2 then
    ∃ base vars guards repetition,
      own = (Surroundings.chain { checker := k, vars, guards } base r.1).steps.map fun st =>
        { st with repetition }
  else own = []

/-- Repeating a step changes its repetition, and that for all steps alike. -/
theorem Surroundings.repeated_alike (count : Nat) (factor : Option Dynamic) (r : Repeat) :
    ∃ r', ∀ st : Step, (repeated count factor { st with repetition := r }).1 =
      { st with repetition := r' } := by
  obtain ⟨n, own⟩ := r
  cases factor with
  | none => exact ⟨⟨(Repeat.times n count).1, own⟩, fun st => rfl⟩
  | some d =>
    cases own with
    | none => exact ⟨⟨(Repeat.times n count).1, some d⟩, fun st => rfl⟩
    | some d' => exact ⟨⟨(Repeat.times n count).1, some d'⟩, fun st => rfl⟩

/-- Repeated steps are as reachable as before. -/
theorem Yields.repeated {k : Checker} {r : Chain × Bool} {own : List Step} (h : Yields k r own)
    (count : Nat) (factor : Option Dynamic) :
    Yields k r (own.map fun st => (Surroundings.repeated count factor st).1) := by
  obtain ⟨ch, reached⟩ := r
  cases reached with
  | false =>
    have hnone : own = [] := h
    subst hnone
    exact rfl
  | true =>
    obtain ⟨base, vars, guards, r, hown⟩ := h
    obtain ⟨r', hr'⟩ := Surroundings.repeated_alike count factor r
    refine ⟨base, vars, guards, r', ?_⟩
    rw [hown, List.map_map]
    exact List.map_congr_left fun st _ => hr' st

mutual

/-- A part has one section for each chain statement. -/
theorem Part.yields_sections (k : Checker) (guards : List Dynamic) (base : Nat) (p : Part) :
    List.Forall₂ (Yields k) p.reach (p.sections k guards base) := by
  cases p with
  | idle chains =>
    rw [Part.reach, Part.sections, List.forall₂_map_left_iff, List.forall₂_map_right_iff]
    exact List.forall₂_same.2 fun ch _ => rfl
  | run ch vars =>
    have honce := Surroundings.once_chain { checker := k, vars, guards } base ch
    rw [Part.reach, Part.sections]
    refine .cons ⟨base, vars, guards, {}, ?_⟩ .nil
    symm
    refine (List.map_congr_left fun st hst => ?_).trans (List.map_id _)
    have hr : st.repetition = {} := (honce st hst).2
    rw [← hr]
    rfl
  | choose test yes no =>
    rw [Part.reach, Part.sections]
    exact List.rel_append (Part.yields_sectionsOf k _ _ yes) (Part.yields_sectionsOf k _ _ no)
  | repeated count factor body =>
    rw [Part.reach, Part.sections, List.forall₂_map_right_iff]
    exact (Part.yields_sectionsOf k guards base body).imp fun r own h => h.repeated count factor

/-- The sections of the parts are what their chains yield, one by one. -/
theorem Part.yields_sectionsOf (k : Checker) (guards : List Dynamic) (base : Nat) (ps : List Part) :
    List.Forall₂ (Yields k) (Part.reachOf ps) (Part.sectionsOf k guards base ps) := by
  cases ps with
  | nil => exact .nil
  | cons p ps =>
    rw [Part.reachOf, Part.sectionsOf]
    exact List.rel_append (Part.yields_sections k guards base p)
      (Part.yields_sectionsOf k guards _ ps)

end

/-! ## statements that cannot be reached -/

mutual

/-- What is reached of a part are its chains. -/
theorem Part.map_reach (p : Part) : p.reach.map (·.1) = p.chains := by
  cases p with
  | idle chains => simp [Part.reach, Part.chains, Function.comp_def]
  | run ch vars => rfl
  | choose test yes no =>
    have hyes := Part.map_reachOf yes
    have hno := Part.map_reachOf no
    simp [Part.reach, Part.chains, hyes, hno]
  | repeated count factor body => exact Part.map_reachOf body

/-- What is reached of the parts are their chains. -/
theorem Part.map_reachOf (ps : List Part) : (Part.reachOf ps).map (·.1) = Part.chainsOf ps := by
  cases ps with
  | nil => rfl
  | cons p ps =>
    have hp := Part.map_reach p
    have hps := Part.map_reachOf ps
    simp [Part.reachOf, Part.chainsOf, hp, hps]

end

/-- A chain statement that cannot be reached does not run. -/
def Unreached (r : Chain × Bool) (n : Nat) : Prop := r.2 = false → n = 0

/-- Chains that do not run are not reached. -/
theorem unreached_idle {rs : List (Chain × Bool)} {chains : List Chain}
    (h : rs.map (·.1) = chains) : List.Forall₂ Unreached rs (idleTally chains) := by
  subst h
  unfold idleTally
  rw [List.map_map, List.forall₂_map_right_iff]
  exact List.forall₂_same.2 fun r _ _ => rfl

mutual

/-- What is not reached in a part is counted zero times. -/
theorem Part.unreached_tally (env : Env) (p : Part) :
    List.Forall₂ Unreached p.reach (p.tally env) := by
  cases p with
  | idle chains =>
    rw [Part.tally]
    exact unreached_idle (Part.map_reach (.idle chains))
  | run ch vars => exact .cons (by simp [Unreached]) .nil
  | choose test yes no =>
    rw [Part.reach, Part.tally]
    split
    · exact List.rel_append (Part.unreached_tallyOf env yes) (unreached_idle (Part.map_reachOf no))
    · exact List.rel_append (unreached_idle (Part.map_reachOf yes)) (Part.unreached_tallyOf env no)
  | repeated count factor body =>
    rw [Part.reach, Part.tally, List.forall₂_map_right_iff]
    refine (Part.unreached_tallyOf env body).imp fun r n h hr => ?_
    rw [h hr, Nat.mul_zero]

/-- What is not reached in the parts is counted zero times. -/
theorem Part.unreached_tallyOf (env : Env) (ps : List Part) :
    List.Forall₂ Unreached (Part.reachOf ps) (Part.tallyOf env ps) := by
  cases ps with
  | nil => exact .nil
  | cons p ps =>
    rw [Part.reachOf, Part.tallyOf]
    exact List.rel_append (Part.unreached_tally env p) (Part.unreached_tallyOf env ps)

end

/-! ## plans -/

/-- Steps that run a number of times in a frame, up to the limit. -/
def RunsTimes (env : Env) (own : List Step) (n : Nat) : Prop :=
  ∀ st ∈ own, st.timesIn env = min (n : Int) maxRepeat

/-- The steps of a plan do in a frame what the program does: they are those of the
chain statements, one section for each; the steps of a section run as often as the
program comes to the statement, up to the limit; and a statement that cannot be
reached has no steps and does not run. -/
structure Refines (p : Program) (k : Checker) (steps : List Step) (env : Env) : Prop where
  statements : p.reach.map (·.1) = p.chains
  sections : ∃ sections : List (List Step), steps = sections.flatten ∧
    List.Forall₂ (Yields k) p.reach sections ∧
    List.Forall₂ (RunsTimes env) sections (p.tally env)
  unreached : List.Forall₂ Unreached p.reach (p.tally env)

/-- A plan says when each step runs as the program says when its statement runs: for
every program that is planned without errors and warnings, in which no jump stands
under a condition or in a loop that the frame decides on and no condition or count
reads a loose variable, and for every frame in which all guards can be evaluated. -/
theorem plan_refines_run {p : Program} {registry : Registry} {options : Options} {plan : Plan}
    {env : Env} (hplan : p.plan registry options = .ok plan) (hclean : Clean plan.diagnostics)
    (hplain : p.survey.plain = true) (hsettled : p.survey.settled = true)
    (hrun : ∀ st ∈ plan.steps, ∀ g ∈ st.guards, (g.run? env).isSome) :
    Refines p { registry, suggest := options.suggest } plan.steps env := by
  obtain ⟨out, hblock, hplanned, hproblems, -⟩ := Program.plan_block hplan
  rw [hproblems, ← hblock] at hclean
  obtain ⟨-, -, hsteps, htallied⟩ := Surroundings.block_renders
    { checker := { registry, suggest := options.suggest } } 0 [] p.statements hclean hplain
  rw [hblock, ← hplanned] at hsteps
  refine ⟨?_, ⟨_, hsteps, Part.yields_sectionsOf _ _ _ _, ?_⟩, ?_⟩
  · exact (Part.map_reachOf _).trans (Stmt.chainsOf_surveyBlock _ _ _)
  · rw [p.tally_eq_outline env hplain hsettled]
    refine ((List.forall₂_and_left (p := fun own : List Step =>
      ∀ st ∈ own, ∀ g ∈ st.guards, (g.run? env).isSome) _ _).2 ⟨?_, htallied env⟩).imp ?_
    · intro own hown st hst
      apply hrun
      rw [hsteps]
      exact List.mem_flatten.2 ⟨own, hown, hst⟩
    · intro own n hown st hst
      exact (hown.2 st hst).timesIn_eq (hown.1 st hst)
  · rw [p.tally_eq_outline env hplain hsettled]
    exact Part.unreached_tallyOf env _

/-! ## programs for one operation -/

/-- A registry with one operation, which begins chains. -/
def studio : Registry where
  ops := { specs := .ofList [("ink", { name := "ink" })], starters := ["ink"] }

def paint : Stmt := .run { calls := [{ name := "ink" }], out := some (.surface {} {}) } {}

/-- The plan of a program in the studio. -/
def studioPlan (p : Program) : Plan := (p.plan studio {}).toOption.getD {}

/-- The plan of a studio program, if it has one. -/
theorem studioPlan_eq {p : Program} (h : (p.plan studio {}).toOption.isSome = true) :
    p.plan studio {} = .ok (studioPlan p) := by
  unfold studioPlan
  cases hp : p.plan studio {} with
  | error e => rw [hp] at h; cases h
  | ok plan => rfl

/-- A conditional with a loop the frame counts, then a loop that is left at once. -/
def sketch : Program where
  search := ["basics"]
  statements := [
    .choose [⟨.ident "time" {}, [.repeated (some (.ident "frame" {})) [paint] {}], {}⟩]
      (some [paint]) {},
    .repeated none [paint, .leaveLoop {}, paint] {}]

/-- The third frame. -/
def thirdFrame : Env := .ofList [("frame", .float 3), ("time", .float 2)]

theorem sketch_refines :
    sketch.tally thirdFrame = [3, 0, 1, 0] ∧ (studioPlan sketch).steps.length = 3 ∧
      Refines sketch { registry := studio, suggest := true } (studioPlan sketch).steps
        thirdFrame := by
  have hplan : sketch.plan studio {} = .ok (studioPlan sketch) := studioPlan_eq (by decide +kernel)
  have hclean : Clean (studioPlan sketch).diagnostics := by
    unfold Clean
    decide +kernel
  refine ⟨by decide +kernel, by decide +kernel, ?_⟩
  exact plan_refines_run hplan hclean (by decide +kernel) (by decide +kernel) (by decide +kernel)

/-- A variable that is bound again under a condition. -/
def rebinding : Program where
  search := ["basics"]
  statements := [
    .bind "n" (.bool false {}) {},
    .choose [⟨.ident "time" {}, [.bind "n" (.bool true {}) {}], {}⟩] none {},
    .choose [⟨.ident "n" {}, [paint], {}⟩] none {}]

/-- A statement under a condition and its negation. -/
def paradox : Program where
  search := ["basics"]
  statements := [
    .choose [⟨.ident "time" {}, [], {}⟩]
      (some [.choose [⟨.ident "time" {}, [paint], {}⟩] none {}]) {}]

/-- The first frame. -/
def firstFrame : Env := .ofList [("frame", .float 0), ("time", .float 0)]

theorem paradox_tally (env : Env) : paradox.tally env = [0] := by
  simp only [Program.tally, paradox, paint, Stmt.execBlock, Stmt.exec, Stmt.execArms]
  cases Bindings.holds {} env (.ident "time" {}) <;> rfl

/-- A step can run in a frame in which its statement does not, when a loose variable
is read; and a statement that no frame comes to can have a step. -/
theorem rebinding_and_paradox :
    (rebinding.plan studio {} = .ok (studioPlan rebinding) ∧
      (studioPlan rebinding).diagnostics.length = 0 ∧ rebinding.survey.plain = true ∧
      (∀ st ∈ (studioPlan rebinding).steps, ∀ g ∈ st.guards, (g.run? firstFrame).isSome) ∧
      (studioPlan rebinding).steps.map (·.timesIn firstFrame) = [1] ∧
      rebinding.tally firstFrame = [0]) ∧
    (paradox.plan studio {} = .ok (studioPlan paradox) ∧
      (studioPlan paradox).diagnostics.length = 0 ∧ paradox.survey.plain = true ∧
      (studioPlan paradox).steps.length = 1 ∧ ∀ env, paradox.tally env = [0]) := by
  refine ⟨⟨studioPlan_eq (by decide +kernel), ?_, ?_, ?_, ?_, ?_⟩,
    studioPlan_eq (by decide +kernel), ?_, ?_, ?_, paradox_tally⟩
  all_goals decide +kernel

end EffectChain

namespace EffectChain

open Emitted

namespace Surroundings

/-! ## jumps -/

/-- Lowering the statements after `base` steps comes to a jump that leaves them, with the
surroundings `t` it has there.  Loops stop all jumps but those that finish the program. -/
inductive Escapes (t : Surroundings) : Flow → Surroundings → Nat → List Stmt → Prop
  | leaveLoop {base : Nat} {pos : Pos} {rest : List Stmt} (hloops : t.loops ≠ 0) :
      Escapes t .leaveLoop t base (.leaveLoop pos :: rest)
  | nextRound {base : Nat} {pos : Pos} {rest : List Stmt} (hloops : t.loops ≠ 0) :
      Escapes t .nextRound t base (.nextRound pos :: rest)
  | finish {base : Nat} {pos : Pos} {rest : List Stmt} : Escapes t .finish t base
      (.finish pos :: rest)
  | arm {jump : Flow} {s s₁ : Surroundings} {base base₁ : Nat} {arms : List Branch}
      {otherwise : Option (List Stmt)} {pos : Pos} {rest body : List Stmt} {f : Fork}
      (hf : Fork.Leads base { s, arms } f)
        (hbody : f.block? base otherwise = some (s₁, base₁, body))
      (h : Escapes t jump s₁ base₁ body) : Escapes t jump s base
        (.choose arms otherwise pos :: rest)
  | loop {s : Surroundings} {base n : Nat} {count : Option Expr} {factor : Option Dynamic}
      {ds : List Diagnostic} {body rest : List Stmt} {pos : Pos}
      (hcount : s.loopCount count pos = (some (n + 1, factor), ds))
      (h : Escapes t .finish { s with loops := s.loops + 1 } base body) :
      Escapes t .finish s base (.repeated count body pos :: rest)
  | later {jump : Flow} {s : Surroundings} {base : Nat} {st : Stmt} {rest : List Stmt}
      (hflow : (s.stmt base st).flow = .onward)
      (h : Escapes t jump { s with vars := (s.stmt base st).vars }
        (base + (s.stmt base st).out.steps.length) rest) :
      Escapes t jump s base (st :: rest)

/-- The statements `rest` of a block are lowered behind a statement with a jump that leaves the
block. -/
def Skips (t : Surroundings) (jump : Flow) (s : Surroundings) (base : Nat) (stmts : List Stmt)
    (s' : Surroundings) (base' : Nat) (rest : List Stmt) : Prop :=
  ∃ s₁ base₁ st, Reaches s base stmts s₁ base₁ (st :: rest) ∧ Escapes t jump s₁ base₁ [st] ∧
    (s₁.stmt base₁ st).flow = .onward ∧ s' = { s₁ with vars := (s₁.stmt base₁ st).vars } ∧
    base' = base₁ + (s₁.stmt base₁ st).out.steps.length

variable {t s : Surroundings} {jump : Flow} {base : Nat} {stmts : List Stmt}

theorem Escapes.ne_onward (h : Escapes t jump s base stmts) : jump ≠ .onward := by
  induction h with
  | arm _ _ _ ih => exact ih
  | later _ _ ih => exact ih
  | _ => simp

theorem Fork.guards_of_leads {f g : Fork} (h : Leads base f g) : g.s.guards = f.s.guards := by
  have hnext : ∀ f g : Fork, f.next? base = some g → g.s.guards = f.s.guards := by
    intro f g hfg
    unfold next? at hfg
    split at hfg
    · simp at hfg
    · split at hfg
      · obtain rfl := Option.some.inj hfg
        rfl
      · obtain rfl := Option.some.inj hfg
        rfl
      · split at hfg
        · simp at hfg
        · obtain rfl := Option.some.inj hfg
          rfl
  induction h with
  | refl => rfl
  | tail _ hfg ih => exact (hnext _ _ hfg).trans ih

/-- The block of an arm is under further guards, or the conditional is left as the block is. -/
theorem Fork.guards_of_block? {otherwise : Option (List Stmt)} {f : Fork} {s₁ : Surroundings}
    {base₁ : Nat} {body : List Stmt} (h : f.block? base otherwise = some (s₁, base₁, body)) :
    ∃ more, s₁.guards = f.s.guards ++ more ∧
      (more = [] → (f.lowered base otherwise).flow = (block s₁ base₁ body).flow) := by
  obtain ⟨s, negated, before, arms⟩ := f
  cases arms with
  | nil =>
      obtain ⟨rest, rfl, heq⟩ := Option.map_eq_some_iff.1 h
      obtain ⟨rfl, rfl, rfl⟩ := heq
      refine ⟨negated, rfl, ?_⟩
      rintro rfl
      rw [lowered, branches]
      rfl
  | cons arm rest =>
      obtain ⟨cond, body', pos⟩ := arm
      rw [lowered]
      dsimp only
      rcases hcond : s.checker.scalar s.vars cond none none "condition" with ⟨_ | v, ds⟩
      · simp [block?, hcond] at h
      · by_cases hv : ∃ d, v = .dynamic d
        · obtain ⟨d, rfl⟩ := hv
          simp only [block?, hcond, Option.some.injEq, Prod.mk.injEq] at h
          obtain ⟨rfl, rfl, rfl⟩ := h
          exact ⟨negated ++ [d], by simp, by simp⟩
        · have hstatic : ∀ d, v ≠ .dynamic d := fun d hd => hv ⟨d, hd⟩
          rw [block?_static otherwise hcond hstatic] at h
          split at h
          · next htest =>
              simp only [Option.some.injEq, Prod.mk.injEq] at h
              obtain ⟨rfl, rfl, rfl⟩ := h
              refine ⟨negated, rfl, ?_⟩
              rintro rfl
              rw [branches_of_static hcond hstatic, if_pos htest]
              rfl
          · simp at h

/-- A block is left as its first statement is, or as the others are. -/
theorem flow_block_cons (s : Surroundings) (base : Nat) (st : Stmt) (rest : List Stmt)
    (h : (s.stmt base st).flow ≠ .onward) :
    (s.block base (st :: rest)).flow = (s.stmt base st).flow := by
  rw [block]
  simp [h]

/-- A jump is under further guards, or the block is left with it. -/
theorem Escapes.guards (h : Escapes t jump s base stmts) :
    ∃ more, t.guards = s.guards ++ more ∧ (more = [] → (s.block base stmts).flow = jump) := by
  induction h with
  | leaveLoop hloops =>
      refine ⟨[], by simp, fun _ => ?_⟩
      rw [flow_block_cons _ _ _ _ (by simp [stmt, hloops])]
      simp [stmt, hloops]
  | nextRound hloops =>
      refine ⟨[], by simp, fun _ => ?_⟩
      rw [flow_block_cons _ _ _ _ (by simp [stmt, hloops])]
      simp [stmt, hloops]
  | finish =>
      refine ⟨[], by simp, fun _ => ?_⟩
      rw [flow_block_cons _ _ _ _ (by simp [stmt])]
      simp [stmt]
  | @arm jump s s₁ base base₁ arms otherwise pos rest body f hf hbody h ih =>
      obtain ⟨inner, hinner, hleft⟩ := ih
      obtain ⟨outer, houter, hsame⟩ := Fork.guards_of_block? hbody
      have hstmt : (s.stmt base (.choose arms otherwise pos)).flow =
          (f.lowered base otherwise).flow := by
        rw [stmt_choose, Fork.lowered_leads otherwise hf]
        rfl
      refine ⟨outer ++ inner, by rw [hinner, houter, Fork.guards_of_leads hf, List.append_assoc],
        fun hnone => ?_⟩
      obtain ⟨rfl, rfl⟩ := List.append_eq_nil_iff.1 hnone
      have hflow := (hstmt.trans (hsame rfl)).trans (hleft rfl)
      rw [flow_block_cons _ _ _ _ (by rw [hflow]; exact h.ne_onward), hflow]
  | @loop s base n count factor ds body rest pos hcount h ih =>
      obtain ⟨inner, hinner, hleft⟩ := ih
      refine ⟨inner, hinner, fun hnone => ?_⟩
      have hflow : (s.stmt base (.repeated count body pos)).flow = .finish := by
        rw [stmt, hcount]
        simp [hleft hnone]
      rw [flow_block_cons _ _ _ _ (by simp [hflow]), hflow]
  | later hflow h ih =>
      obtain ⟨inner, hinner, hleft⟩ := ih
      refine ⟨inner, hinner, fun hnone => ?_⟩
      rw [block]
      simpa [hflow] using hleft hnone

end Surroundings

/-! ## what is skipped -/

/-- The value is false in every frame in which all the guards hold. -/
def Excludes (guards : List Dynamic) (g : Dynamic) : Prop :=
  ∀ env, allHold env guards = true → (g.eval env).truthy = false

open Surroundings in
/-- A jump whose following statements are lowered is under further guards, and these are lost on
the statements: their steps are what they come to without any guards, behind the guards that the
jump has as well.  In the frames in which the jump is made such a step runs exactly when its own
guards hold, and it has a guard that is false in all of them exactly if one of its own is, or
there are no such frames. -/
theorem skipped_excluded_iff {program : Program} {registry : Registry} {options : Options}
    {p : Plan} (hplan : program.plan registry options = .ok p) {t s : Surroundings} {jump : Flow}
    {base : Nat} {rest : List Stmt}
    (hskip : Skips t jump { checker := { registry, suggest := options.suggest } } 0
      program.statements s base rest) :
    (∃ more, more ≠ [] ∧ t.guards = s.guards ++ more) ∧
      (s.block base rest).out.steps = (block { s with guards := [] } base rest).out.steps.map
        (Step.behind s.guards) ∧
      ∀ own ∈ (block { s with guards := [] } base rest).out.steps,
        (∃ r, { own.behind s.guards with repetition := r } ∈ p.steps) ∧
        (∀ env, allHold env t.guards = true → allHold env (own.behind s.guards).guards =
          allHold env own.guards) ∧
        ((∃ g ∈ (own.behind s.guards).guards, Excludes t.guards g) ↔
          (∃ g ∈ own.guards, Excludes t.guards g) ∨ s.guards ≠ [] ∧ ∀ env,
          allHold env t.guards = false) := by
  obtain ⟨s₁, base₁, st, hreach, hjump, hflow, rfl, rfl⟩ := hskip
  obtain ⟨more, hguards, hleft⟩ := hjump.guards
  have hmore : more ≠ [] := by
    intro hnone
    have hblock : (s₁.block base₁ [st]).flow = .onward := by simp [block, hflow]
    exact hjump.ne_onward ((hleft hnone).symm.trans hblock)
  generalize hs : { s₁ with vars := (s₁.stmt base₁ st).vars } = s
  generalize hbase : base₁ + (s₁.stmt base₁ st).out.steps.length = base
  have hsteps : (s.block base rest).out.steps =
      (block { s with guards := [] } base rest).out.steps.map (Step.behind s.guards) := by
    have hbehind := block_behind s.guards rest { s with guards := [] } base
    have hsame : Surroundings.behind s.guards { s with guards := [] } = s := by
      simp [Surroundings.behind]
    rw [hsame] at hbehind
    rw [hbehind]
    rfl
  have hfront : t.guards = s.guards ++ more := by rw [hguards, ← hs]
  have houter : ∀ env, allHold env t.guards = true → ∀ g ∈ s.guards,
      (g.eval env).truthy = true := by
    intro env hhold g hg
    rw [hfront] at hhold
    exact List.all_eq_true.1 hhold g (List.mem_append_left _ hg)
  refine ⟨⟨more, hmore, hfront⟩, hsteps, fun own hown => ⟨?_, ?_, ?_⟩⟩
  · have hwithin := (Reaches.later hflow .here).within.trans hreach.within
    rw [hs, hbase] at hwithin
    obtain ⟨out, hout, hplanned, -⟩ := Program.plan_block hplan
    rw [hplanned, ← hout]
    exact hwithin.steps (own.behind s.guards) (by rw [hsteps]; exact List.mem_map_of_mem hown)
  · intro env hhold
    have hall : s.guards.all (fun g => (g.eval env).truthy) = true :=
      List.all_eq_true.2 (houter env hhold)
    simp [Step.behind, allHold, hall]
  · constructor
    · rintro ⟨g, hg, hfalse⟩
      rcases List.mem_append.1 hg with hg | hg
      · refine .inr ⟨List.ne_nil_of_mem hg, fun env => ?_⟩
        by_contra hhold
        have hhold : allHold env t.guards = true := by simpa using hhold
        exact absurd (houter env hhold g hg) (by simp [hfalse env hhold])
      · exact .inl ⟨g, hg, hfalse⟩
    · rintro (⟨g, hg, hfalse⟩ | ⟨hne, hnever⟩)
      · exact ⟨g, List.mem_append_right _ hg, hfalse⟩
      · obtain ⟨g, hg⟩ := List.exists_mem_of_ne_nil _ hne
        exact ⟨g, List.mem_append_left _ hg, fun env hhold => absurd hhold (by simp [hnever env])⟩

/-- A statement that draws. -/
def inkDrop : Stmt :=
  .run { calls := [{ name := "ink" }], out := some (.surface { kind := .output, index := 0 } {}) }
    {}

/-- A loop that is left when time has passed, before it draws. -/
def vignette : Program where
  search := ["darkroom"]
  statements :=
    [.repeated none [.choose [⟨.ident "time" {}, [.leaveLoop {}], {}⟩] none {}, inkDrop] {}]

open Surroundings in
/-- Nothing is reported, and the step behind the jump has no guard that stops it. -/
theorem vignette_draws_on :
    ∃ p t s base own, vignette.plan darkroom {} = .ok p ∧ p.diagnostics.length = 0 ∧
      Skips t .leaveLoop { checker := { registry := darkroom } } 0 vignette.statements s base
        [inkDrop] ∧
      t.guards ≠ [] ∧ own ∈ (s.block base [inkDrop]).out.steps ∧
      (∃ r, { own with repetition := r } ∈ p.steps) ∧ ¬ ∃ g ∈ own.guards, Excludes t.guards g := by
  obtain ⟨p, hplan, hquiet⟩ : ∃ p, vignette.plan darkroom {} = .ok p ∧
      p.diagnostics.length = 0 := by
    have hok : (vignette.plan darkroom {}).toOption.map (·.diagnostics.length) = some 0 := by
      decide +kernel
    cases h : vignette.plan darkroom {} with
    | ok p => exact ⟨p, rfl, by simpa [h, Except.toOption] using hok⟩
    | error e => simp [h, Except.toOption] at hok
  have hcount : loopCount { checker := { registry := darkroom } } none {} =
    (some (0 + 1, none), []) := rfl
  obtain ⟨t, hskip⟩ : ∃ t : Surroundings,
      Skips t .leaveLoop { checker := { registry := darkroom } } 0
      vignette.statements { checker := { registry := darkroom }, loops := 1 } 0 [inkDrop] :=
    ⟨_, _, _, _, .loop hcount .here,
      .arm .refl rfl (.leaveLoop (by decide)), rfl, rfl, rfl⟩
  obtain ⟨⟨more, hne, hguards⟩, -, hall⟩ := skipped_excluded_iff hplan hskip
  have hdrawn :
      (block { checker := { registry := darkroom }, loops := 1 } 0 [inkDrop]).out.steps.map
      (fun st => st.guards.length) = [0] := by decide +kernel
  obtain ⟨own, hown, hbare⟩ := List.map_eq_singleton_iff.1 hdrawn
  have hmem : own ∈
      (block { checker := { registry := darkroom }, loops := 1 } 0 [inkDrop]).out.steps := by
    rw [hown]
    exact List.mem_singleton_self own
  refine ⟨p, t, _, _, own, hplan, hquiet, hskip, by simpa [hguards] using hne, hmem,
    (hall own hmem).1, ?_⟩
  simp [List.eq_nil_of_length_eq_zero hbare]

end EffectChain
