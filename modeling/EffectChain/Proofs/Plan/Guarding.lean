import EffectChain.Proofs.Plan.Circularity

/-!
# EffectChain.Proofs.Plan.Guarding

Guards are carried along.

What lowering comes to does not depend on the guards it is done under: no value, no variable and
no problem does, and every step has them in front of its own (`Surroundings.block_behind`).
-/

namespace EffectChain

open Emitted

/-- The step with further guards in front of its own. -/
def Step.behind (gs : List Dynamic) (st : Step) : Step := { st with guards := gs ++ st.guards }

/-- The same with further guards in front. -/
def Emitted.behind (gs : List Dynamic) (e : Emitted) : Emitted :=
  { e with steps := e.steps.map (Step.behind gs) }

namespace Emitted

variable {gs : List Dynamic}

@[simp] theorem length_behind (e : Emitted) :
    (e.behind gs).steps.length = e.steps.length := by simp [behind]

@[simp] theorem behind_nothing : ({} : Emitted).behind gs = {} := rfl

@[simp] theorem behind_append (a b : Emitted) :
    (a ++ b).behind gs = a.behind gs ++ b.behind gs := by
  change (⟨_, _, _⟩ : Emitted) = ⟨_, _, _⟩
  simp [behind]

@[simp] theorem behind_notes (ds : List Diagnostic) : (notes ds).behind gs = notes ds := rfl

@[simp] theorem behind_note (p : Problem) (pos : Pos) : (note p pos).behind gs = note p pos := rfl

end Emitted

/-- The same with further guards in front. -/
def Lowered.behind (gs : List Dynamic) (r : Lowered) : Lowered := { r with out := r.out.behind gs }

namespace Surroundings

/-- The surroundings with further guards in front. -/
def behind (gs : List Dynamic) (s : Surroundings) : Surroundings :=
  { s with guards := gs ++ s.guards }

/-! ## chains -/

section chain

variable {gs : List Dynamic} {s : Surroundings} {sub sub' : LowerChain}

/-- More guards around a surface argument are more guards around its steps. -/
theorem surfaceArg_behind
    (hsub : ∀ base ch, sub' base ch = ((sub base ch).1.behind gs, (sub base ch).2)) (base : Nat)
    (a : ArgSpec) (e : Expr) :
    surfaceArg sub' base a e = ((surfaceArg sub base a e).1.behind gs,
      (surfaceArg sub base a e).2) := by
  cases e with
  | call c => simp [surfaceArg, hsub]
  | chain ch => simp [surfaceArg, hsub]
  | string t pos =>
      simp only [surfaceArg]
      cases Surface.ofName? (Bytes.toString t) <;> rfl
  | _ => rfl

/-- More guards around an argument are more guards around its steps. -/
theorem argument_behind
    (hsub : ∀ base ch, sub' base ch = ((sub base ch).1.behind gs, (sub base ch).2)) (base : Nat)
    (a : ArgSpec) (e : Expr) :
    (s.behind gs).argument sub' base a e =
      ((s.argument sub base a e).1.behind gs, (s.argument sub base a e).2) := by
  unfold argument
  cases a.type with
  | surface => exact surfaceArg_behind hsub base a (s.vars.deref e)
  | string =>
      dsimp only [behind]
      split <;> rfl
  | _ => rfl

/-- The arguments with further guards in front of the steps. -/
def Arguments.behind (gs : List Dynamic) (r : Arguments) : Arguments :=
  { r with out := r.out.behind gs }

/-- More guards around an argument that is taken are more guards around its steps. -/
theorem take_behind (hsub : ∀ base ch, sub' base ch = ((sub base ch).1.behind gs, (sub base ch).2))
    (base : Nat) (given : Table Expr) (r : Arguments) (a : ArgSpec) :
    Arguments.take (s.behind gs) sub' base given (r.behind gs) a =
      (Arguments.take s sub base given r a).behind gs := by
  unfold Arguments.take
  dsimp only [Surroundings.behind]
  cases given.get? a.name with
  | none => cases s.checker.defaultValue a <;> rfl
  | some e =>
      have harg := argument_behind (s := s) hsub (base + r.out.steps.length) a e
      dsimp only [Arguments.behind, Surroundings.behind] at harg ⊢
      rw [length_behind, harg]
      cases s.argument sub (base + r.out.steps.length) a e with
      | mk out v =>
          cases v with
          | none => cases s.checker.defaultValue a <;> simp
          | some v => simp

/-- More guards around a call are more guards around its steps. -/
theorem call_behind (hsub : ∀ base ch, sub' base ch = ((sub base ch).1.behind gs, (sub base ch).2))
    (base : Nat) (c : Call) (spec : OpSpec) (source : Option Nat) :
    (s.behind gs).call sub' base c spec source =
      ((s.call sub base c spec source).1.behind gs, (s.call sub base c spec source).2) := by
  have hfold : ∀ (given : Table Expr) (ds : List Diagnostic),
      spec.args.foldl (Arguments.take (s.behind gs) sub' base given) { out := notes ds } =
        (spec.args.foldl (Arguments.take s sub base given) { out := notes ds }).behind gs :=
    fun given ds => @List.foldl_hom _ _ _ (Arguments.behind gs) _ _ spec.args { out := notes ds }
      fun r a => take_behind hsub base given r a
  have hcheck : (s.behind gs).checker = s.checker := rfl
  unfold call
  dsimp only
  rw [hfold, hcheck]
  generalize spec.args.foldl (Arguments.take s sub base _) _ = r
  dsimp only [Arguments.behind]
  rw [length_behind, behind_append]
  rfl

/-- The progress with further guards in front of the steps. -/
def Progress.behind (gs : List Dynamic) (p : Progress) : Progress :=
  { p with out := p.out.behind gs }

/-- More guards around a further call are more guards around its steps. -/
theorem next_behind (hsub : ∀ base ch, sub' base ch = ((sub base ch).1.behind gs, (sub base ch).2))
    (base : Nat) (p : Progress) (c : Call) :
    Progress.next (s.behind gs) sub' base (p.behind gs) c = (Progress.next s sub base p c).behind
      gs := by
  have hcall := fun base spec source => call_behind (s := s) hsub base c spec source
  unfold Progress.next
  dsimp only [Progress.behind]
  simp only [show (s.behind gs).checker = s.checker from rfl]
  cases resolve? s.checker.registry c with
  | none => simp
  | some spec =>
      dsimp only
      split
      · simp
      · split
        · simp
        · simp [hcall]

/-- Setting a target and guarding may be done in either order. -/
theorem setOut_behind (temp : Nat) (o : Surface) (steps : List Step) :
    setOut temp o (steps.map (Step.behind gs)) = (setOut temp o steps).map (Step.behind gs) := by
  rw [setOut, setOut, List.map_map, List.map_map]
  refine List.map_congr_left fun st _ => ?_
  by_cases htemp : st.temp = temp <;> simp [Step.behind, htemp]

/-- More guards around a chain are more guards around its steps. -/
theorem chainWith_behind
    (hsub : ∀ base ch, sub' base ch = ((sub base ch).1.behind gs, (sub base ch).2))
    (isArgument : Bool) (base : Nat) (ch : Chain) :
    (s.behind gs).chainWith sub' isArgument base ch =
      ((s.chainWith sub isArgument base ch).1.behind gs,
        (s.chainWith sub isArgument base ch).2) := by
  have hfold : ∀ (cs : List Call) (ds : List Diagnostic),
      cs.foldl (Progress.next (s.behind gs) sub' base) { out := notes ds } =
        (cs.foldl (Progress.next s sub base) { out := notes ds }).behind gs :=
    fun cs ds => @List.foldl_hom _ _ _ (Progress.behind gs) _ _ cs { out := notes ds }
      fun p c => next_behind hsub base p c
  have hvars : (s.behind gs).vars = s.vars := rfl
  unfold chainWith
  dsimp only
  rw [hvars, hfold]
  generalize (s.vars.expandChain ch).1.foldl (Progress.next s sub base)
    { out := notes (s.vars.expandChain ch).2 } = p
  dsimp only [Progress.behind]
  cases p.last with
  | none => rfl
  | some last =>
      dsimp only
      cases ch.out with
      | some e =>
          dsimp only
          rcases outTarget s.vars e with ⟨_ | o, ds⟩
          · simp
          · rw [behind_append, behind_notes]
            simp only [Emitted.behind, setOut_behind]
      | none =>
          dsimp only
          cases p.starter with
          | none => rfl
          | some op => cases isArgument <;> simp

end chain

/-- More guards around a nested chain are more guards around its steps, at every depth. -/
theorem subchain_behind (gs : List Dynamic) (s : Surroundings) (depth base : Nat) (ch : Chain) :
    (s.behind gs).subchain depth base ch =
      ((s.subchain depth base ch).1.behind gs, (s.subchain depth base ch).2) := by
  induction depth generalizing base ch with
  | zero => rfl
  | succ depth ih => exact chainWith_behind ih true base ch

theorem chain_behind (gs : List Dynamic) (s : Surroundings) (base : Nat) (ch : Chain) :
    (s.behind gs).chain base ch = (s.chain base ch).behind gs :=
  congrArg Prod.fst (chainWith_behind (s.subchain_behind gs (depthBound s.vars ch)) false base ch)

/-! ## statements -/

/-- Repeating and guarding may be done in either order. -/
theorem repeatBody_behind (gs : List Dynamic) (n : Nat) (factor : Option Dynamic) (pos : Pos)
    (body : Emitted) :
    repeatBody n factor pos (body.behind gs) = (repeatBody n factor pos body).behind gs := by
  have hone : ∀ st : Step, repeated n factor (st.behind gs) =
      ((repeated n factor st).1.behind gs, (repeated n factor st).2) := by
    intro st
    unfold repeated
    dsimp only [Step.behind]
    split <;> rfl
  have hmap : (body.behind gs).steps.map (repeated n factor) =
      (body.steps.map (repeated n factor)).map fun r => (r.1.behind gs, r.2) := by
    simp [Emitted.behind, hone, Function.comp_def]
  unfold repeatBody
  dsimp only
  rw [hmap]
  generalize body.steps.map (repeated n factor) = rs
  have hany : ((rs.map fun r => (r.1.behind gs, r.2)).any fun x => x.2.1) = rs.any fun x =>
      x.2.1 := by
    rw [List.any_map]
    rfl
  rw [behind_append, behind_append, behind_notes, behind_notes, hany]
  simp [Emitted.behind, Function.comp_def, List.filter_map]

mutual

/-- More guards around a statement are more guards around its steps. -/
theorem stmt_behind (gs : List Dynamic) (st : Stmt) (s : Surroundings) (base : Nat) :
    (s.behind gs).stmt base st = (s.stmt base st).behind gs := by
  cases st with
  | bind name value pos =>
      rw [stmt, stmt]
      rfl
  | run ch pos =>
      rw [stmt, stmt, chain_behind]
      rfl
  | choose arms otherwise pos =>
      cases otherwise with
      | none =>
          rw [stmt, stmt]
          exact branches_behind gs arms (fun _ _ _ => rfl) s base [] {}
      | some body =>
          rw [stmt, stmt]
          refine branches_behind gs arms (fun s negated before => ?_) s base [] {}
          have hbody :=
            block_behind gs body { s with guards := s.guards ++ negated }
              (base + before.steps.length)
          simp only [behind, ← List.append_assoc] at hbody ⊢
          rw [length_behind, hbody]
          simp [after, Lowered.behind]
  | repeated count body pos =>
      have hcount : (s.behind gs).loopCount count pos = s.loopCount count pos := rfl
      have hbody := block_behind gs body { s with loops := s.loops + 1 } base
      rw [stmt, stmt, hcount]
      cases s.loopCount count pos with
      | mk r ds =>
          rcases r with _ | ⟨_ | n, factor⟩
          · rfl
          · rfl
          · dsimp only [behind] at hbody ⊢
            rw [hbody]
            cases hflow : (block { s with loops := s.loops + 1 } base body).flow <;>
              simp [hflow, Lowered.behind, repeatBody_behind]
  | leaveLoop pos =>
      rw [stmt, stmt]
      by_cases hloops : s.loops = 0 <;> simp [behind, Lowered.behind, hloops]
  | nextRound pos =>
      rw [stmt, stmt]
      by_cases hloops : s.loops = 0 <;> simp [behind, Lowered.behind, hloops]
  | finish pos =>
      rw [stmt, stmt]
      rfl

/-- Lowering under further guards comes to the same, with these in front of the guards of every
step. -/
theorem block_behind (gs : List Dynamic) (stmts : List Stmt) (s : Surroundings) (base : Nat) :
    (s.behind gs).block base stmts = (s.block base stmts).behind gs := by
  cases stmts with
  | nil =>
      rw [block, block]
      rfl
  | cons st rest =>
      have hrest := block_behind gs rest { s with vars := (s.stmt base st).vars }
        (base + (s.stmt base st).out.steps.length)
      rw [block, block, stmt_behind gs st]
      dsimp only [behind, Lowered.behind] at hrest ⊢
      rw [length_behind, hrest]
      by_cases hflow : (s.stmt base st).flow = .onward <;> simp [hflow]

/-- More guards around a choice are more guards around its steps. -/
theorem branches_behind (gs : List Dynamic) (arms : List Branch)
    {otherwise : Surroundings → List Dynamic → Emitted → Lowered}
    (ho : ∀ s negated before, otherwise (s.behind gs) negated (before.behind gs) =
      (otherwise s negated before).behind gs)
    (s : Surroundings) (base : Nat) (negated : List Dynamic) (before : Emitted) :
    (s.behind gs).branches base negated (before.behind gs) otherwise arms =
      (s.branches base negated before otherwise arms).behind gs := by
  cases arms with
  | nil =>
      rw [branches, branches]
      exact ho s negated before
  | cons arm rest =>
      obtain ⟨cond, body, pos⟩ := arm
      have hscalar : (s.behind gs).checker.scalar (s.behind gs).vars cond none none "condition" =
          s.checker.scalar s.vars cond none none "condition" := rfl
      rcases hcond : s.checker.scalar s.vars cond none none "condition" with ⟨_ | v, ds⟩
      · rw [branches_of_none hcond, branches_of_none (hscalar.trans hcond)]
        simpa using branches_behind gs rest ho s base negated (before ++ notes ds)
      · by_cases hv : ∃ d, v = .dynamic d
        · obtain ⟨d, rfl⟩ := hv
          have hbody := block_behind gs body { s with guards := s.guards ++ negated ++ [d] }
            (base + (before ++ notes ds).steps.length)
          have hrest := branches_behind gs rest ho
            { s with vars := (block { s with guards := s.guards ++ negated ++ [d] }
              (base + (before ++ notes ds).steps.length) body).vars } base (negated ++ [d.not])
            (before ++ notes ds ++ (block { s with guards := s.guards ++ negated ++ [d] }
              (base + (before ++ notes ds).steps.length) body).out)
          have hs : { s.behind gs with guards := (s.behind gs).guards ++ negated ++ [d] } =
              behind gs { s with guards := s.guards ++ negated ++ [d] } := by simp [behind]
          have hlen : (before.behind gs ++ notes ds).steps.length =
            (before ++ notes ds).steps.length := by simp
          rw [branches_of_dynamic hcond, branches_of_dynamic (hscalar.trans hcond), ← hrest]
          dsimp only
          rw [hs, hlen, hbody]
          simp [behind, Lowered.behind]
        · have hstatic : ∀ d, v ≠ .dynamic d := fun d hd => hv ⟨d, hd⟩
          have hbody := block_behind gs body { s with guards := s.guards ++ negated }
            (base + (before ++ notes ds).steps.length)
          rw [branches_of_static hcond hstatic, branches_of_static (hscalar.trans hcond) hstatic]
          split
          · have hs : { s.behind gs with guards := (s.behind gs).guards ++ negated } =
                behind gs { s with guards := s.guards ++ negated } := by simp [behind]
            have hlen : (before.behind gs ++ notes ds).steps.length =
              (before ++ notes ds).steps.length := by simp
            rw [hs, hlen, hbody]
            simp [after, Lowered.behind]
          · simpa using branches_behind gs rest ho s base negated (before ++ notes ds)

end

end Surroundings

end EffectChain
