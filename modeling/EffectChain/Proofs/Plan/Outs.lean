import EffectChain.Proofs.Plan.Numbering

/-!
# EffectChain.Proofs.Plan.Outs

What becomes of the surfaces that chains are written to.

* `Program.plan_unaimed` — what a variable's chain is to be written to is lost: a program is planned
  as if it did not say so;
* `outs_planned` — a chain statement and a chain among its arguments, however deep, is written
  where it says, or a problem is reported.
-/

namespace EffectChain

open Emitted

/-! ## chains of variables -/

/-- A chain that says nothing of where it is written to; any other expression as it is. -/
def Expr.unaimed : Expr → Expr
  | .chain ch => .chain { ch with out := none }
  | e => e

mutual

/-- A statement that says nothing of where the chains of variables are written to. -/
def Stmt.unaimed : Stmt → Stmt
  | .bind name value pos => .bind name value.unaimed pos
  | .run ch pos => .run ch pos
  | .choose arms none pos => .choose (Stmt.unaimedArms arms) none pos
  | .choose arms (some body) pos =>
      .choose (Stmt.unaimedArms arms) (some (Stmt.unaimedBlock body)) pos
  | .repeated count body pos => .repeated count (Stmt.unaimedBlock body) pos
  | .leaveLoop pos => .leaveLoop pos
  | .nextRound pos => .nextRound pos
  | .finish pos => .finish pos

def Stmt.unaimedBlock : List Stmt → List Stmt
  | [] => []
  | st :: rest => st.unaimed :: Stmt.unaimedBlock rest

def Stmt.unaimedArms : List Branch → List Branch
  | [] => []
  | ⟨cond, body, pos⟩ :: rest => ⟨cond, Stmt.unaimedBlock body, pos⟩ :: Stmt.unaimedArms rest

end

/-- The program with the same statements, but that the chains of variables are written nowhere. -/
def Program.unaimed (p : Program) : Program :=
  { p with statements := Stmt.unaimedBlock p.statements }

theorem Bindings.bind_unaimed (vars : Bindings) (name : String) (value : Expr) :
    vars.bind name value.unaimed = vars.bind name value := by
  cases value <;> rfl

theorem Stmt.pos_unaimed (st : Stmt) : st.unaimed.pos = st.pos := by
  cases st with
  | choose arms otherwise pos => cases otherwise <;> rfl
  | _ => rfl

theorem Stmt.map_pos_unaimedBlock (stmts : List Stmt) :
    (unaimedBlock stmts).map Stmt.pos = stmts.map Stmt.pos := by
  induction stmts with
  | nil => rfl
  | cons st rest ih => simp [unaimedBlock, pos_unaimed, ih]

namespace Surroundings

mutual

/-- Targets in bound values do not matter to a statement. -/
theorem stmt_unaimed (st : Stmt) (s : Surroundings) (base : Nat) :
    s.stmt base st.unaimed = s.stmt base st := by
  cases st with
  | bind name value pos => rw [Stmt.unaimed, stmt, stmt, Bindings.bind_unaimed]
  | choose arms otherwise pos =>
      cases otherwise with
      | none => rw [Stmt.unaimed, stmt, stmt, branches_unaimed arms]
      | some body =>
          rw [Stmt.unaimed, stmt, stmt, branches_unaimed arms]
          simp only [block_unaimed body]
  | repeated count body pos =>
      rw [Stmt.unaimed, stmt, stmt]
      simp only [block_unaimed body]
  | _ => rw [Stmt.unaimed]

/-- A block is lowered as if the chains of variables were written nowhere. -/
theorem block_unaimed (stmts : List Stmt) (s : Surroundings) (base : Nat) :
    s.block base (Stmt.unaimedBlock stmts) = s.block base stmts := by
  cases stmts with
  | nil => rw [Stmt.unaimedBlock]
  | cons st rest =>
      have hpos := congrArg (List.map fun pos => ({ problem := .unreachable, pos } : Diagnostic))
        (Stmt.map_pos_unaimedBlock rest)
      simp only [List.map_map, Function.comp_def] at hpos
      rw [Stmt.unaimedBlock, block, block, stmt_unaimed st]
      simp only [block_unaimed rest, hpos]

/-- Targets in bound values do not matter to a choice. -/
theorem branches_unaimed (arms : List Branch) (s : Surroundings) (base : Nat)
    (negated : List Dynamic) (before : Emitted)
    (otherwise : Surroundings → List Dynamic → Emitted → Lowered) :
    s.branches base negated before otherwise (Stmt.unaimedArms arms) =
      s.branches base negated before otherwise arms := by
  cases arms with
  | nil => rw [Stmt.unaimedArms]
  | cons arm rest =>
      obtain ⟨cond, body, pos⟩ := arm
      rw [Stmt.unaimedArms, branches, branches]
      simp only [block_unaimed body, branches_unaimed rest]

end

end Surroundings

/-- A program is planned as if the chains of its variables were written nowhere. -/
theorem Program.plan_unaimed (program : Program) (registry : Registry) (options : Options) :
    program.unaimed.plan registry options = program.plan registry options := by
  simp only [Program.plan, Program.unaimed, Surroundings.block_unaimed]

/-! ## chains among arguments -/

/-- The steps are among others, and the problems stand among others in one piece. -/
structure Emitted.Among (a b : Emitted) : Prop where
  steps : a.steps ⊆ b.steps
  piece : a.problems <:+: b.problems

namespace Emitted.Among

variable {a b c : Emitted}

theorem problems (h : a.Among b) : a.problems ⊆ b.problems := h.piece.subset

theorem refl (a : Emitted) : a.Among a := ⟨fun _ h => h, List.infix_rfl⟩

theorem trans (hab : a.Among b) (hbc : b.Among c) : a.Among c :=
  ⟨fun _ h => hbc.steps (hab.steps h), hab.piece.trans hbc.piece⟩

theorem left (a b : Emitted) : a.Among (a ++ b) :=
  ⟨List.subset_append_left _ _, (List.prefix_append _ _).isInfix⟩

theorem right (a b : Emitted) : b.Among (a ++ b) :=
  ⟨List.subset_append_right _ _, (List.suffix_append _ _).isInfix⟩

end Emitted.Among

namespace Surroundings

variable {s : Surroundings} {sub : LowerChain}

/-- A chain that is given for a surface is lowered as it is, and its last step is the value. -/
theorem argument_chain (sub : LowerChain) (base : Nat) {a : ArgSpec} {e : Expr} {inner : Chain}
    (ha : a.type = .surface) (hinner : (s.vars.deref e).asChain? = some inner) :
    s.argument sub base a e = ((sub base inner).1, (sub base inner).2.map fun t =>
      .ref ⟨.temp, t⟩) := by
  unfold argument
  rw [ha]
  dsimp only
  cases hd : s.vars.deref e with
  | call c =>
      rw [hd] at hinner
      obtain rfl := Option.some.inj hinner
      rfl
  | chain ch =>
      rw [hd] at hinner
      obtain rfl := Option.some.inj hinner
      rfl
  | _ => simp [hd, Expr.asChain?] at hinner

theorem among_take (base : Nat) (given : Table Expr) (r : Arguments) (a : ArgSpec) :
    r.out.Among (Arguments.take s sub base given r a).out := by
  rcases take_cases s sub base given r a with ⟨e, out, v, -, -, htake⟩
    | ⟨out, -, ⟨v, -, htake⟩ | htake⟩ <;>
    rw [htake] <;> exact .left _ _

/-- The nested chain of an argument is emitted when the argument is taken. -/
theorem among_take_chain (sub : LowerChain) (base : Nat) (given : Table Expr) (r : Arguments)
    {a : ArgSpec} {e : Expr} {inner : Chain} (ha : a.type = .surface)
    (hgiven : given.get? a.name = some e) (hinner : (s.vars.deref e).asChain? = some inner) :
    ∃ base', (sub base' inner).1.Among (Arguments.take s sub base given r a).out := by
  have hout := congrArg Prod.fst (argument_chain sub (base + r.out.steps.length) ha hinner)
  refine ⟨base + r.out.steps.length, ?_⟩
  rw [← hout]
  rcases take_cases s sub base given r a with ⟨e', out, v, he', harg, htake⟩
    | ⟨out, hunwritten, htake⟩
  · obtain rfl := Option.some.inj (hgiven.symm.trans he')
    rw [htake, harg]
    exact .right _ _
  · rcases hunwritten with ⟨hnone, -⟩ | ⟨e', he', harg⟩
    · simp [hgiven] at hnone
    · obtain rfl := Option.some.inj (hgiven.symm.trans he')
      rw [harg]
      rcases htake with ⟨v, -, htake⟩ | htake <;> rw [htake] <;> exact .right _ _

/-- What was emitted stays when more arguments are taken. -/
theorem among_foldl_take (base : Nat) (given : Table Expr) (as : List ArgSpec) (r : Arguments) :
    r.out.Among (as.foldl (Arguments.take s sub base given) r).out := by
  induction as generalizing r with
  | nil => exact .refl _
  | cons a as ih => exact (among_take base given r a).trans (ih _)

/-- A chain among the arguments of a call brings its steps and its problems. -/
theorem among_arguments (sub : LowerChain) (base : Nat) (c : Call) {spec : OpSpec} {a : ArgSpec}
    {e : Expr} {inner : Chain} (hmem : a ∈ spec.args) (ha : a.type = .surface)
    (hgiven : (s.given c spec).get? a.name = some e)
    (hinner : (s.vars.deref e).asChain? = some inner) :
    ∃ base', (sub base' inner).1.Among (s.arguments sub base c spec).out := by
  have hfold : ∀ (as : List ArgSpec) (r : Arguments), a ∈ as →
      ∃ base', (sub base' inner).1.Among
          (as.foldl (Arguments.take s sub base (s.given c spec)) r).out := by
    intro as
    induction as with
    | nil => simp
    | cons a' as ih =>
        intro r h
        rcases List.mem_cons.1 h with rfl | h
        · obtain ⟨base', hamong⟩ := among_take_chain (s := s) sub base _ r ha hgiven hinner
          exact ⟨base', hamong.trans (among_foldl_take base _ as _)⟩
        · exact ih _ h
  exact hfold spec.args _ hmem

/-! ## the calls of a chain -/

/-- What was emitted stays when more calls are taken. -/
theorem among_foldl_next (base : Nat) (cs : List Call) (p : Progress) :
    p.out.Among (cs.foldl (Progress.next s sub base) p).out := by
  induction cs generalizing p with
  | nil => exact .refl _
  | cons c cs ih =>
      refine .trans ?_ (ih _)
      rcases next_cases s sub base p c with ⟨spec, -, hout, -⟩ | ⟨-, -, ds, hout⟩ <;> rw [hout]
        <;> exact .left _ _

/-- Calls that become no steps change nothing but the problems. -/
theorem foldl_next_of_not_taken (sub : LowerChain) (base : Nat) (cs : List Call) (p : Progress)
    (h : s.taken p.last.isSome cs = []) :
    (cs.foldl (Progress.next s sub base) p).out.steps = p.out.steps ∧
      (cs.foldl (Progress.next s sub base) p).last = p.last := by
  induction cs generalizing p with
  | nil => exact ⟨rfl, rfl⟩
  | cons c cs ih =>
      rcases next_cases s sub base p c with ⟨spec, htaken, -⟩ | ⟨htaken, hlast, ds, hout⟩
      · simp [htaken] at h
      · obtain ⟨hsteps, hlast'⟩ :=
          ih (Progress.next s sub base p c) (by rw [hlast, ← htaken]; exact h)
        exact ⟨by rw [List.foldl_cons, hsteps, hout]; simp, by rw [List.foldl_cons, hlast', hlast]⟩

/-- The last call that becomes a step is the last step of the chain. -/
theorem last_foldl_next (sub : LowerChain) (base : Nat) (cs : List Call) (p : Progress) {c : Call}
    {spec : OpSpec} (h : (s.taken p.last.isSome cs).getLast? = some (c, spec)) :
    ∃ base' source,
    s.stepOf sub base' c spec source ∈ (cs.foldl (Progress.next s sub base) p).out.steps ∧
      (cs.foldl (Progress.next s sub base) p).last =
        some (s.stepOf sub base' c spec source).temp := by
  induction cs generalizing p with
  | nil => simp [taken] at h
  | cons c' cs ih =>
      rw [List.foldl_cons]
      rcases next_cases s sub base p c' with ⟨spec', htaken, hout, hlast⟩ | ⟨htaken, hlast, -⟩
      · rw [htaken, List.getLast?_cons] at h
        have hbegun : s.taken (Progress.next s sub base p c').last.isSome cs = s.taken true cs := by
          rw [hlast]; rfl
        cases hrest : (s.taken true cs).getLast? with
        | some call =>
            rw [hrest] at h
            exact ih (Progress.next s sub base p c') (by rw [hbegun, hrest]; exact h)
        | none =>
            rw [hrest] at h
            obtain ⟨rfl, rfl⟩ := Prod.mk.inj (Option.some.inj h)
            obtain ⟨hsteps, hlast'⟩ := foldl_next_of_not_taken (s := s) sub base cs
              (Progress.next s sub base p c')
                (by rw [hbegun]; exact List.getLast?_eq_none_iff.1 hrest)
            exact ⟨base + p.out.steps.length, p.last, by rw [hsteps, hout]; simp,
              by rw [hlast', hlast]⟩
      · exact ih (Progress.next s sub base p c') (by rw [hlast, ← htaken]; exact h)

/-- Further calls number their steps upward. -/
theorem le_last_foldl_next (hsub : ∀ base ch, Numbered base (sub base ch).1.steps) (base : Nat)
    (cs : List Call) {p : Progress} (hp : p.Numbered base) {n : Nat} (hn : p.last = some n) :
    ∃ last, (cs.foldl (Progress.next s sub base) p).last = some last ∧ n ≤ last := by
  induction cs generalizing p n with
  | nil => exact ⟨n, hn, le_rfl⟩
  | cons c cs ih =>
      have hnext := numbered_next (s := s) hsub base c hp
      rcases next_cases s sub base p c with ⟨spec, -, -, hlast⟩ | ⟨-, hlast, -⟩
      · obtain ⟨last, hq, hle⟩ := ih hnext hlast
        have hbefore := (hp.last n hn).2
        simp only [stepOf] at hle
        exact ⟨last, hq, by omega⟩
      · exact ih hnext (hlast.trans hn)

/-- The steps of the arguments of a call are among those of the chain, before its last one. -/
theorem among_taken (hsub : ∀ base ch, Numbered base (sub base ch).1.steps) (base : Nat)
    (cs : List Call) {p : Progress} (hp : p.Numbered base) {c : Call} {spec : OpSpec}
    (h : (c, spec) ∈ s.taken p.last.isSome cs) :
    ∃ base' last, (cs.foldl (Progress.next s sub base) p).last = some last ∧
      (s.arguments sub base' c spec).out.Among (cs.foldl (Progress.next s sub base) p).out ∧
      ∀ st ∈ (s.arguments sub base' c spec).out.steps, st.temp < last := by
  induction cs generalizing p with
  | nil => simp [taken] at h
  | cons c' cs ih =>
      have hnext := numbered_next (s := s) hsub base c' hp
      rw [List.foldl_cons]
      rcases next_cases s sub base p c' with ⟨spec', htaken, hout, hlast⟩ | ⟨htaken, hlast, -⟩
      · rw [htaken] at h
        rcases List.mem_cons.1 h with heq | h
        · obtain ⟨rfl, rfl⟩ := Prod.mk.inj heq
          obtain ⟨last, hq, hle⟩ := le_last_foldl_next (s := s) hsub base cs hnext hlast
          refine ⟨base + p.out.steps.length, last, hq, .trans ?_ (among_foldl_next base cs _),
            fun st hst => ?_⟩
          · rw [hout]
            exact (Emitted.Among.left _ _).trans (.right _ _)
          · have hbefore := ((numbered_arguments (s := s) hsub _ c spec).bounds hst).2
            simp only [stepOf] at hle
            omega
        · exact ih hnext (by rw [hlast]; exact h)
      · exact ih hnext (by rw [hlast, ← htaken]; exact h)

/-! ## chains -/

/-- A target is a surface or is reported. -/
theorem outTarget_cases (vars : Bindings) (e : Expr) :
    (∃ o, outTarget vars e = (some o, [])) ∨ ∃ d, outTarget vars e = (none, [d]) := by
  unfold outTarget
  split
  · split
    · exact .inl ⟨_, rfl⟩
    · exact .inr ⟨_, rfl⟩
  · exact .inr ⟨_, rfl⟩
  · exact .inr ⟨_, rfl⟩

/-- The calls of a chain, lowered. -/
def calls (s : Surroundings) (sub : LowerChain) (base : Nat) (ch : Chain) : Progress :=
  (s.vars.expandChain ch).1.foldl (Progress.next s sub base)
    { out := notes (s.vars.expandChain ch).2 }

theorem mem_setOut_of_ne {temp : Nat} {o : Surface} {steps : List Step} {st : Step}
    (hst : st ∈ steps) (hne : st.temp ≠ temp) : st ∈ setOut temp o steps :=
  List.mem_map.2 ⟨st, hst, if_neg hne⟩

/-- Only the last step of a chain says where the chain is written to, or there is a problem. -/
theorem chainWith_calls (s : Surroundings) (sub : LowerChain) (isArgument : Bool) (base : Nat)
    (ch : Chain) :
    (∀ st ∈ (s.calls sub base ch).out.steps, (s.calls sub base ch).last ≠ some st.temp →
      st ∈ (s.chainWith sub isArgument base ch).1.steps) ∧
    (s.calls sub base ch).out.problems <+: (s.chainWith sub isArgument base ch).1.problems ∧
    ∀ e last, ch.out = some e → (s.calls sub base ch).last = some last →
      (∃ o, outTarget s.vars e = (some o, []) ∧
        (s.chainWith sub isArgument base ch).1.steps =
          setOut last o (s.calls sub base ch).out.steps) ∨
      ∃ d, outTarget s.vars e = (none, [d]) ∧
      d ∈ (s.chainWith sub isArgument base ch).1.problems := by
  unfold chainWith
  dsimp only
  rw [show (s.vars.expandChain ch).1.foldl (Progress.next s sub base)
    { out := notes (s.vars.expandChain ch).2 } =
    s.calls sub base ch from rfl]
  generalize s.calls sub base ch = q
  cases q.last with
  | none => simp
  | some last =>
      cases ch.out with
      | none => cases q.starter <;> cases isArgument <;> simp +contextual
      | some e =>
          dsimp only
          rcases outTarget_cases s.vars e with ⟨o, ho⟩ | ⟨d, hd⟩
          · rw [ho]
            refine ⟨fun st hst hne => ?_, by simp, fun e' last' he' hlast' => .inl ⟨o, ?_⟩⟩
            · exact List.mem_append_left _ (mem_setOut_of_ne hst fun h => hne (by rw [h]))
            · obtain rfl := Option.some.inj he'
              obtain rfl := Option.some.inj hlast'
              exact ⟨ho, by simp⟩
          · rw [hd]
            refine ⟨fun st hst _ => List.mem_append_left _ hst, by simp, fun e' last' he' _ =>
              .inr ⟨d, ?_⟩⟩
            obtain rfl := Option.some.inj he'
            exact ⟨hd, by simp⟩

/-- The steps of a chain are those of its calls, the last of which is written where the chain says.
-/
theorem steps_chainWith (s : Surroundings) (sub : LowerChain) (isArgument : Bool) (base : Nat)
    (ch : Chain) :
    (s.chainWith sub isArgument base ch).2 = (s.calls sub base ch).last ∧
      (s.chainWith sub isArgument base ch).1.steps =
        match (s.calls sub base ch).last, ch.out.bind fun e => (outTarget s.vars e).1 with
        | some last, some o => setOut last o (s.calls sub base ch).out.steps
        | _, _ => (s.calls sub base ch).out.steps := by
  unfold chainWith
  dsimp only
  rw [show (s.vars.expandChain ch).1.foldl (Progress.next s sub base)
    { out := notes (s.vars.expandChain ch).2 } =
    s.calls sub base ch from rfl]
  generalize s.calls sub base ch = q
  cases q.last with
  | none => simp
  | some last =>
      cases ch.out with
      | none => cases q.starter <;> cases isArgument <;> simp
      | some e =>
          dsimp only [Option.bind_some]
          rcases outTarget_cases s.vars e with ⟨o, ho⟩ | ⟨d, hd⟩
          · simp [ho]
          · simp [hd]

/-- A chain among the arguments of a chain brings its steps and its problems. -/
theorem Nests.among {ch inner : Chain} (h : s.Nests ch inner)
    (hsub : ∀ base ch, Numbered base (sub base ch).1.steps) (isArgument : Bool) (base : Nat) :
    ∃ base', (sub base' inner).1.Among (s.chainWith sub isArgument base ch).1 := by
  obtain ⟨⟨c, spec⟩, hcall, a, hmem, ha, e, hgiven, hinner⟩ := h
  obtain ⟨base₁, last, hlast, hargs, hbefore⟩ :=
    among_taken (s := s) hsub base (s.vars.expandChain ch).1 (.begin base (s.vars.expandChain ch).2)
      hcall
  obtain ⟨base', hchain⟩ := among_arguments (s := s) sub base₁ c hmem ha hgiven hinner
  obtain ⟨hsteps, hproblems, -⟩ := s.chainWith_calls sub isArgument base ch
  refine ⟨base', fun st hst => hsteps st (hargs.steps (hchain.steps hst)) ?_,
    (hchain.trans hargs).piece.trans hproblems.isInfix⟩
  have hlt := hbefore st (hchain.steps hst)
  change (s.calls sub base ch).last = some last at hlast
  rw [hlast]
  exact fun heq => absurd (Option.some.inj heq) (by omega)

/-- A chain nested in one that is lowered to the end is lowered to the end. -/
theorem among_nested {ch inner : Chain} (hpath : Relation.ReflTransGen s.Nests ch inner)
    (depth : Nat) (hends : ¬ s.Deep (depth + 1) ch) (isArgument : Bool) (base : Nat) :
    ∃ depth' isArgument' base', (s.chainWith (s.subchain depth') isArgument' base' inner).1.Among
      (s.chainWith (s.subchain depth) isArgument base ch).1 := by
  induction hpath using Relation.ReflTransGen.head_induction_on
      generalizing depth isArgument base with
  | refl => exact ⟨depth, isArgument, base, .refl _⟩
  | @head ch next hnests _ ih =>
      cases depth with
      | zero => exact absurd ⟨next, hnests, trivial⟩ hends
      | succ depth =>
          have hnext : ¬ s.Deep (depth + 1) next := fun hdeep => hends ⟨next, hnests, hdeep⟩
          obtain ⟨base₁, hamong⟩ := hnests.among (s.numbered_subchain (depth + 1)) isArgument base
          obtain ⟨depth', isArgument', base', hinner⟩ := ih depth hnext true base₁
          exact ⟨depth', isArgument', base', hinner.trans hamong⟩

/-- A chain with a call that becomes a step is written where it says: its last step does, or there
is a problem. -/
theorem out_chainWith (sub : LowerChain) (isArgument : Bool) (base : Nat) {ch : Chain} {e : Expr}
    {c : Call} {spec : OpSpec} (hout : ch.out = some e)
    (hlast : (s.taken false (s.vars.expandChain ch).1).getLast? = some (c, spec)) :
    (∃ o, outTarget s.vars e = (some o, []) ∧ ∃ st ∈ (s.chainWith sub isArgument base ch).1.steps,
      st.op = spec.name ∧ st.pos = c.pos ∧ st.out = some o) ∨
    ∃ d, outTarget s.vars e = (none, [d]) ∧
    d ∈ (s.chainWith sub isArgument base ch).1.problems := by
  obtain ⟨base', source, hstep, hlast⟩ :=
    last_foldl_next (s := s) sub base (s.vars.expandChain ch).1
    { out := notes (s.vars.expandChain ch).2 } hlast
  rcases (s.chainWith_calls sub isArgument base ch).2.2 e _ hout hlast with ⟨o, ho, hsteps⟩ | hd
  · refine .inl ⟨o, ho, { s.stepOf sub base' c spec source with out := some o }, ?_, rfl, rfl, rfl⟩
    rw [hsteps]
    exact List.mem_map.2 ⟨_, hstep, if_pos rfl⟩
  · exact .inr hd

end Surroundings

open Surroundings in
/-- The chain of a variable may say where it is to be written, and the plan is the same as if it
did not.  Every other chain that comes to a step, a chain statement or one among the arguments of
another, however deep, is written where it says by its last step, or it is reported that it cannot
be written there. -/
theorem outs_planned {program : Program} {registry : Registry} {options : Options} {p : Plan}
    (hplan : program.plan registry options = .ok p) :
    program.unaimed.plan registry options = .ok p ∧
      ∀ (s : Surroundings) (ch inner : Chain) (e : Expr) (c : Call) (spec : OpSpec),
        Comes { checker := { registry, suggest := options.suggest } } 0 program.statements s ch →
        Relation.ReflTransGen s.Nests ch inner → inner.out = some e →
        (s.taken false (s.vars.expandChain inner).1).getLast? = some (c, spec) →
        (∃ o, outTarget s.vars e = (some o, []) ∧
          ∃ st ∈ p.steps, st.op = spec.name ∧ st.pos = c.pos ∧ st.out = some o) ∨
        ∃ d, outTarget s.vars e = (none, [d]) ∧ d ∈ p.diagnostics := by
  refine ⟨(program.plan_unaimed registry options).trans hplan, ?_⟩
  intro s ch inner e c spec hcomes hpath hout hlast
  obtain ⟨out, hblock, hsteps, hproblems, hends, -⟩ := Program.plan_block hplan
  obtain ⟨base, hwithin⟩ := hcomes.within
  rw [hblock] at hwithin
  have hdeep : ¬ s.Deep (depthBound s.vars ch + 1) ch := by
    intro hdeep
    have hloops : Loops { checker := { registry, suggest := options.suggest } } 0
        program.statements :=
      ⟨s, ch, hcomes, (deep_iff_circular (Nat.le_succ _)).1 hdeep⟩
    have hcircular := (circular_block program.statements _ 0).2 hloops
    rw [hblock, hends] at hcircular
    cases hcircular
  obtain ⟨depth, isArgument, base', hamong⟩ :=
    among_nested hpath (depthBound s.vars ch) hdeep false base
  rcases out_chainWith (s.subchain depth) isArgument base' hout hlast
    with ⟨o, ho, st, hst, hop, hpos, hwritten⟩ | hd
  · obtain ⟨r, hr⟩ := hwithin.steps st (hamong.steps hst)
    exact .inl ⟨o, ho, { st with repetition := r }, by rw [hsteps]; exact hr, hop, hpos, hwritten⟩
  · obtain ⟨d, hd, hmem⟩ := hd
    exact .inr ⟨d, hd, by rw [hproblems]; exact hwithin.problems (hamong.problems hmem)⟩

/-- A chain bound to a variable that says it is written to the second output. -/
def misfiled : Program where
  search := ["darkroom"]
  statements :=
    [ .bind "a" (.chain { calls := [{ name := "ink" }],
                          out := some (.surface { kind := .output, index := 1 } {}) }) {},
      .run { calls := [{ name := "ink" },
               { name := "mix", kwargs := [⟨"tex", .ident "a" {}, {}⟩] }],
             out := some (.surface { kind := .output, index := 0 } {}) } {} ]

/-- The chain is drawn and written nowhere, and nothing is reported. -/
theorem misfiled_out_lost :
    ∃ p, misfiled.plan darkroom {} = .ok p ∧ misfiled.unaimed.plan darkroom {} = .ok p ∧
      p.diagnostics.length = 0 ∧ p.steps.map (·.op) = ["ink", "ink", "mix"] ∧
      p.steps.map (·.out) = [none, none, some { kind := .output, index := 0 }] := by
  have hok : (misfiled.plan darkroom {}).toOption.map
      (fun p => (p.diagnostics.length, p.steps.map (·.op), p.steps.map (·.out))) =
        some (0, ["ink", "ink", "mix"], [none, none, some { kind := .output, index := 0 }]) := by
          decide +kernel
  cases h : misfiled.plan darkroom {} with
  | error e => simp [h, Except.toOption] at hok
  | ok p =>
      simp only [h, Except.toOption, Option.map_some, Option.some.injEq, Prod.mk.injEq] at hok
      exact ⟨p, rfl, (outs_planned h).1, hok⟩

end EffectChain
