import EffectChain.Proofs.Plan.Circularity

/-!
# EffectChain.Proofs.Plan.Arrivals

The steps of a program, by the chain statements that lowering comes to.

The steps of a block are those of the chain statements in it that lowering comes to, one after
another, and a loop changes nothing of them but how often they run.

* `Surroundings.gathered_reached`, `Surroundings.gathered_block` — what holds of the steps of each
  of them holds of the steps of the block;
* `Surroundings.Reaches.within` — the steps and the problems of the statements that lowering comes
  to are among those of the block, and so are those of a chain statement.
-/

namespace EffectChain

open Emitted

/-- What holds of steps that come after others, and of the steps of a loop, if it holds of what
they are put together from. -/
structure Gathers (Q : Nat → List Step → Prop) : Prop where
  nil : ∀ base, Q base []
  append : ∀ {base as bs}, Q base as → Q (base + as.length) bs → Q base (as ++ bs)
  repeated : ∀ {base as} n factor, Q base as →
    Q base (as.map fun st => (Surroundings.repeated n factor st).1)

/-- A step of a loop's body is the same step, more often. -/
theorem Surroundings.repeated_fst (n : Nat) (factor : Option Dynamic) (st : Step) :
    (repeated n factor st).1 = { st with repetition := (repeated n factor st).1.repetition } := by
  unfold repeated
  dsimp only
  split <;> rfl

/-- What holds of every step that is like one of a chain. -/
theorem Gathers.forall {P : Step → Prop} (h : ∀ st r, P st → P { st with repetition := r }) :
    Gathers fun _ steps => ∀ st ∈ steps, P st where
  nil _ := by simp
  append hs ht := List.forall_mem_append.2 ⟨hs, ht⟩
  repeated n factor hs := by
    refine List.forall_mem_map.2 fun st hst => ?_
    rw [Surroundings.repeated_fst]
    exact h st _ (hs st hst)

namespace Surroundings

variable {Q : Nat → List Step → Prop} {s s' : Surroundings} {base : Nat} {stmts : List Stmt}
    {ch : Chain}

/-! ## arms that no frame decides on -/

section fork

variable {negated : List Dynamic} {before : Emitted} {cond : Expr} {body : List Stmt} {pos : Pos}
  {rest : List Branch} {ds : List Diagnostic} {v : Value}

/-- An arm that no frame decides on is taken or left. -/
theorem Fork.next?_static (h : s.checker.scalar s.vars cond none none "condition" = (some v, ds))
    (hv : ∀ d, v ≠ .dynamic d) :
    Fork.next? base ⟨s, negated, before, ⟨cond, body, pos⟩ :: rest⟩ =
      if (v.eval {}).truthy then none else some ⟨s, negated, before ++ notes ds, rest⟩ := by
  rw [Fork.next?]
  dsimp only
  rw [h]
  cases v with
  | dynamic d => exact absurd rfl (hv d)
  | _ => rfl

/-- A static condition decides which block a fork runs. -/
theorem Fork.block?_static (otherwise : Option (List Stmt))
    (h : s.checker.scalar s.vars cond none none "condition" = (some v, ds))
    (hv : ∀ d, v ≠ .dynamic d) :
    Fork.block? base otherwise ⟨s, negated, before, ⟨cond, body, pos⟩ :: rest⟩ =
      if (v.eval {}).truthy then
        some ({ s with guards := s.guards ++ negated }, base + (before ++ notes ds).steps.length,
          body)
      else none := by
  rw [Fork.block?]
  dsimp only
  rw [h]
  cases v with
  | dynamic d => exact absurd rfl (hv d)
  | _ => rfl

end fork

/-! ## the statements that lowering comes to -/

/-- Lowering the statements after `base` steps comes to those of a block that are left, with
their surroundings and the number of steps before them. -/
inductive Reaches : Surroundings → Nat → List Stmt → Surroundings → Nat → List Stmt → Prop
  | here {s : Surroundings} {base : Nat} {stmts : List Stmt} : Reaches s base stmts s base stmts
  | arm {s s₁ s' : Surroundings} {base base₁ base' : Nat} {arms : List Branch}
      {otherwise : Option (List Stmt)}
      {pos : Pos} {rest body stmts : List Stmt} {f : Fork} (hf : Fork.Leads base { s, arms } f)
      (hbody : f.block? base otherwise = some (s₁, base₁, body))
        (h : Reaches s₁ base₁ body s' base' stmts) :
      Reaches s base (.choose arms otherwise pos :: rest) s' base' stmts
  | loop {s s' : Surroundings} {base base' n : Nat} {count : Option Expr} {factor : Option Dynamic}
      {ds : List Diagnostic} {body rest stmts : List Stmt} {pos : Pos}
      (hcount : s.loopCount count pos = (some (n + 1, factor), ds))
      (h : Reaches { s with loops := s.loops + 1 } base body s' base' stmts) :
      Reaches s base (.repeated count body pos :: rest) s' base' stmts
  | later {s s' : Surroundings} {base base' : Nat} {st : Stmt} {rest stmts : List Stmt}
      (hflow : (s.stmt base st).flow = .onward)
      (h : Reaches { s with vars := (s.stmt base st).vars }
        (base + (s.stmt base st).out.steps.length) rest
        s' base' stmts) :
      Reaches s base (st :: rest) s' base' stmts

/-- Chain statements are among the statements that lowering comes to. -/
theorem Comes.reaches (h : Comes s base stmts s' ch) :
    ∃ base' pos rest, Reaches s base stmts s' base' (.run ch pos :: rest) := by
  induction h with
  | run => exact ⟨_, _, _, .here⟩
  | arm hf hbody _ ih =>
      obtain ⟨base', pos, rest, hreach⟩ := ih
      exact ⟨base', pos, rest, .arm hf hbody hreach⟩
  | loop hcount _ ih =>
      obtain ⟨base', pos, rest, hreach⟩ := ih
      exact ⟨base', pos, rest, .loop hcount hreach⟩
  | later hflow _ ih =>
      obtain ⟨base', pos, rest, hreach⟩ := ih
      exact ⟨base', pos, rest, .later hflow hreach⟩

/-- What comes to a chain statement comes to its chain. -/
theorem Reaches.comes {base' : Nat} {pos : Pos} {rest : List Stmt}
    (h : Reaches s base stmts s' base' (.run ch pos :: rest)) : Comes s base stmts s' ch := by
  generalize hrun : Stmt.run ch pos :: rest = left at h
  induction h with
  | here =>
      subst hrun
      exact .run
  | arm hf hbody _ ih => exact .arm hf hbody (ih hrun)
  | loop hcount _ ih => exact .loop hcount (ih hrun)
  | later hflow _ ih => exact .later hflow (ih hrun)

/-- A block comes to what its first statement comes to. -/
theorem Reaches.cons {base' : Nat} {st : Stmt} {pos : Pos} {rest more : List Stmt}
    (h : Reaches s base [st] s' base' (.run ch pos :: rest)) :
    ∃ rest', Reaches s base (st :: more) s' base' (.run ch pos :: rest') := by
  cases h with
  | here => exact ⟨more, .here⟩
  | arm hf hbody h => exact ⟨rest, .arm hf hbody h⟩
  | loop hcount h => exact ⟨rest, .loop hcount h⟩
  | later _ h => cases h

/-! ## from the chain statements to the block -/

/-- The steps of the arms of a conditional are those of the blocks that lowering comes to. -/
theorem gathered_branches (hQ : Gathers Q) (base : Nat) (otherwise : Option (List Stmt))
    (arms : List Branch) (s : Surroundings) (negated : List Dynamic) (before : Emitted)
    (hbefore : Q base before.steps)
    (hblocks : ∀ f s₁ base₁ body, Fork.Leads base ⟨s, negated, before, arms⟩ f →
      f.block? base otherwise = some (s₁, base₁, body) → Q base₁ (block s₁ base₁ body).out.steps) :
    Q base (s.branches base negated before (orElse base otherwise) arms).out.steps := by
  induction arms generalizing s negated before with
  | nil =>
      rw [branches]
      cases otherwise with
      | none => exact hbefore
      | some body => exact hQ.append hbefore (hblocks _ _ _ _ .refl rfl)
  | cons arm rest ih =>
      obtain ⟨cond, body, pos⟩ := arm
      rcases hcond : s.checker.scalar s.vars cond none none "condition" with ⟨v, ds⟩
      have hnotes : Q base (before ++ notes ds).steps := by simpa using hbefore
      cases v with
      | none =>
          rw [branches_of_none hcond]
          exact ih s negated _ hnotes fun f _ _ _ hleads =>
            hblocks f _ _ _ (.head (by simp [Fork.next?, hcond]) hleads)
      | some v =>
          by_cases hv : ∃ d, v = .dynamic d
          · obtain ⟨d, rfl⟩ := hv
            rw [branches_of_dynamic hcond]
            refine ih _ _ _
              (hQ.append hnotes (hblocks _ _ _ _ .refl (by simp [Fork.block?, hcond]))) ?_
            exact fun f _ _ _ hleads => hblocks f _ _ _ (.head (by simp [Fork.next?, hcond]) hleads)
          · have hstatic : ∀ d, v ≠ .dynamic d := fun d hd => hv ⟨d, hd⟩
            rw [branches_of_static hcond hstatic]
            split
            · next htest =>
                exact hQ.append hnotes (hblocks _ _ _ _ .refl
                  ((Fork.block?_static otherwise hcond hstatic).trans (if_pos htest)))
            · next htest =>
                exact ih s negated _ hnotes fun f _ _ _ hleads =>
                  hblocks f _ _ _
                    (.head ((Fork.next?_static hcond hstatic).trans (if_neg htest)) hleads)

mutual

/-- What chains gather a statement gathers. -/
theorem gathered_stmt (hQ : Gathers Q) (st : Stmt) (s : Surroundings) (base : Nat)
    (hchains : ∀ s' base' ch pos rest, Reaches s base [st] s' base' (.run ch pos :: rest) →
      Q base' (s'.chain base' ch).steps) :
    Q base (s.stmt base st).out.steps := by
  cases st with
  | bind name value pos =>
      rw [stmt]
      exact hQ.nil base
  | run ch pos =>
      rw [stmt]
      exact hchains s base ch pos [] .here
  | choose arms otherwise pos =>
      rw [stmt_choose]
      refine gathered_branches hQ base otherwise arms s [] {} (hQ.nil base)
        fun f s₁ base₁ body hleads hblock => ?_
      have hbody : ∀ s' base' ch pos rest, Reaches s₁ base₁ body s' base' (.run ch pos :: rest) →
          Q base' (s'.chain base' ch).steps :=
        fun s' base' ch pos rest hreach => hchains s' base' ch pos rest (.arm hleads hblock hreach)
      rcases Fork.block?_source hleads hblock with ⟨arm, harm, rfl⟩ | helse
      · exact gathered_arms hQ arms arm harm s₁ base₁ hbody
      · cases otherwise with
        | none => simp at helse
        | some rest =>
            obtain rfl := Option.some.inj helse
            exact gathered_reached hQ rest s₁ base₁ hbody
  | repeated count body pos =>
      rw [stmt]
      cases hcount : s.loopCount count pos with
      | mk r ds =>
          rcases r with _ | ⟨_ | n, factor⟩
          · exact hQ.nil base
          · exact hQ.nil base
          · have hbody := gathered_reached hQ body { s with loops := s.loops + 1 } base
              fun s' base' ch pos rest hreach => hchains s' base' ch pos rest (.loop hcount hreach)
            cases hflow : (block { s with loops := s.loops + 1 } base body).flow with
            | leaveLoop => simpa [hflow] using hbody
            | finish => simpa [hflow] using hbody
            | _ =>
                simpa [hflow, repeatBody, Function.comp_def] using hQ.repeated (n + 1) factor hbody
  | leaveLoop pos =>
      rw [stmt]
      split <;> exact hQ.nil base
  | nextRound pos =>
      rw [stmt]
      split <;> exact hQ.nil base
  | finish pos =>
      rw [stmt]
      exact hQ.nil base

/-- What holds of the steps of every chain statement that lowering comes to, where it comes to it,
holds of all steps. -/
theorem gathered_reached (hQ : Gathers Q) (stmts : List Stmt) (s : Surroundings) (base : Nat)
    (hchains : ∀ s' base' ch pos rest, Reaches s base stmts s' base' (.run ch pos :: rest) →
      Q base' (s'.chain base' ch).steps) :
    Q base (s.block base stmts).out.steps := by
  cases stmts with
  | nil =>
      rw [block]
      exact hQ.nil base
  | cons st rest =>
      have hfirst := gathered_stmt hQ st s base fun s' base' ch pos _ hreach =>
        let ⟨_, hmore⟩ := hreach.cons
        hchains s' base' ch pos _ hmore
      rw [block]
      dsimp only
      split
      · next hflow =>
          exact hQ.append hfirst (gathered_reached hQ rest _ _
            fun s' base' ch pos rest hreach => hchains s' base' ch pos rest (.later hflow hreach))
      · simpa using hfirst

/-- What chains gather the arms of a choice gather. -/
theorem gathered_arms (hQ : Gathers Q) (arms : List Branch) (arm : Branch) (harm : arm ∈ arms)
    (s : Surroundings) (base : Nat)
    (hchains : ∀ s' base' ch pos rest, Reaches s base arm.body s' base' (.run ch pos :: rest) →
      Q base' (s'.chain base' ch).steps) :
    Q base (s.block base arm.body).out.steps := by
  cases arms with
  | nil => simp at harm
  | cons first rest =>
      obtain ⟨cond, body, pos⟩ := first
      rcases List.mem_cons.1 harm with rfl | harm
      · exact gathered_reached hQ body s base hchains
      · exact gathered_arms hQ rest arm harm s base hchains

end

/-- What holds of the steps of every chain statement that lowering comes to holds of all steps. -/
theorem gathered_block (hQ : Gathers Q) (stmts : List Stmt) (s : Surroundings) (base : Nat)
    (hchains : ∀ s' base' ch, Comes s base stmts s' ch → Q base' (s'.chain base' ch).steps) :
    Q base (s.block base stmts).out.steps :=
  gathered_reached hQ stmts s base fun s' base' ch _ _ hreach => hchains s' base' ch hreach.comes

/-! ## from the block to the statements it comes to -/

/-- What the arms of a conditional that are left come to. -/
def Fork.lowered (base : Nat) (otherwise : Option (List Stmt)) (f : Fork) : Lowered :=
  f.s.branches base f.negated f.before (orElse base otherwise) f.arms

/-- Going to the next fork does not change what is lowered. -/
theorem Fork.lowered_next? {f g : Fork} (otherwise : Option (List Stmt))
    (h : f.next? base = some g) :
    g.lowered base otherwise = f.lowered base otherwise := by
  obtain ⟨s, negated, before, arms⟩ := f
  cases arms with
  | nil => simp [next?] at h
  | cons arm rest =>
      obtain ⟨cond, body, pos⟩ := arm
      rcases hcond : s.checker.scalar s.vars cond none none "condition" with ⟨_ | v, ds⟩
      · simp only [next?, hcond, Option.some.injEq] at h
        subst h
        exact (branches_of_none hcond).symm
      · by_cases hv : ∃ d, v = .dynamic d
        · obtain ⟨d, rfl⟩ := hv
          simp only [next?, hcond, Option.some.injEq] at h
          subst h
          exact (branches_of_dynamic hcond).symm
        · have hstatic : ∀ d, v ≠ .dynamic d := fun d hd => hv ⟨d, hd⟩
          rw [next?_static hcond hstatic] at h
          split at h
          · simp at h
          · next hnot =>
              obtain rfl := Option.some.inj h
              exact ((branches_of_static hcond hstatic).trans (if_neg hnot)).symm

/-- Going on through the forks does not change what is lowered. -/
theorem Fork.lowered_leads {f g : Fork} (otherwise : Option (List Stmt)) (h : Leads base f g) :
    g.lowered base otherwise = f.lowered base otherwise := by
  induction h with
  | refl => rfl
  | tail _ hnext ih => rw [lowered_next? otherwise hnext, ih]

end Surroundings

namespace Emitted

theorem append_assoc (a b c : Emitted) : a ++ b ++ c = a ++ (b ++ c) := by
  change Emitted.mk _ _ _ = Emitted.mk _ _ _
  simp [Bool.or_assoc]

@[simp] theorem append_empty (a : Emitted) : a ++ {} = a := by
  change Emitted.mk _ _ _ = a
  simp

/-- The steps are among the others, but for how often they run, and the problems stand among the
others in one piece. -/
structure Within (a b : Emitted) : Prop where
  steps : ∀ st ∈ a.steps, ∃ r, { st with repetition := r } ∈ b.steps
  piece : a.problems <:+: b.problems

namespace Within

variable {a b c : Emitted}

theorem problems (h : a.Within b) : a.problems ⊆ b.problems := h.piece.subset

theorem refl (a : Emitted) : a.Within a := ⟨fun st hst => ⟨st.repetition, hst⟩, List.infix_rfl⟩

/-- What lies within a part lies within the whole. -/
theorem trans (hab : a.Within b) (hbc : b.Within c) : a.Within c where
  steps st hst := by
    obtain ⟨r, hr⟩ := hab.steps st hst
    obtain ⟨r', hr'⟩ := hbc.steps _ hr
    exact ⟨r', hr'⟩
  piece := hab.piece.trans hbc.piece

theorem left (a b : Emitted) : a.Within (a ++ b) :=
  ⟨fun st hst => ⟨st.repetition, List.mem_append_left _ hst⟩, (List.prefix_append _ _).isInfix⟩

theorem right (a b : Emitted) : b.Within (a ++ b) :=
  ⟨fun st hst => ⟨st.repetition, List.mem_append_right _ hst⟩, (List.suffix_append _ _).isInfix⟩

/-- A body lies within its repetition. -/
theorem repeatBody (n : Nat) (factor : Option Dynamic) (pos : Pos) (a : Emitted) :
    a.Within (Surroundings.repeatBody n factor pos a) where
  steps st hst := by
    refine ⟨(Surroundings.repeated n factor st).1.repetition, ?_⟩
    rw [← Surroundings.repeated_fst]
    simpa [Surroundings.repeatBody] using ⟨st, hst, rfl⟩
  piece := by
    simp only [Surroundings.repeatBody, problems_append, List.append_assoc]
    exact (List.prefix_append _ _).isInfix

end Within

end Emitted

namespace Surroundings

variable {s s' : Surroundings} {base base' : Nat} {stmts stmts' : List Stmt} {ch : Chain}

/-- What came before the arms that are left stays in front. -/
theorem Fork.lowered_append (base : Nat) (otherwise : Option (List Stmt)) (arms : List Branch)
    (s : Surroundings) (negated : List Dynamic) (before : Emitted) :
    ∃ more, (Fork.lowered base otherwise ⟨s, negated, before, arms⟩).out = before ++ more := by
  induction arms generalizing s negated before with
  | nil =>
      rw [lowered, branches]
      cases otherwise with
      | none => exact ⟨{}, before.append_empty.symm⟩
      | some body => exact ⟨_, rfl⟩
  | cons arm rest ih =>
      obtain ⟨cond, body, pos⟩ := arm
      have hlater : ∀ s negated e, ∃ more,
          (Fork.lowered base otherwise ⟨s, negated, before ++ e, rest⟩).out = before ++ more := by
        intro s negated e
        obtain ⟨more, hmore⟩ := ih s negated (before ++ e)
        exact ⟨e ++ more, by rw [hmore, Emitted.append_assoc]⟩
      rw [lowered]
      dsimp only
      rcases hcond : s.checker.scalar s.vars cond none none "condition" with ⟨_ | v, ds⟩
      · rw [branches_of_none hcond]
        exact hlater s negated _
      · by_cases hv : ∃ d, v = .dynamic d
        · obtain ⟨d, rfl⟩ := hv
          rw [branches_of_dynamic hcond]
          dsimp only
          rw [Emitted.append_assoc]
          exact hlater _ _ _
        · rw [branches_of_static hcond fun d hd => hv ⟨d, hd⟩]
          split
          · exact ⟨_, Emitted.append_assoc before _ _⟩
          · exact hlater s negated _

/-- What the block of an arm comes to is a part of what the conditional comes to, behind the steps
that the block was told to begin after. -/
theorem Fork.block?_between {otherwise : Option (List Stmt)} {f : Fork} {s₁ : Surroundings}
    {base₁ : Nat} {body : List Stmt} (h : f.block? base otherwise = some (s₁, base₁, body)) :
    ∃ pre post, (f.lowered base otherwise).out = pre ++ (block s₁ base₁ body).out ++ post ∧
      base₁ = base + pre.steps.length := by
  obtain ⟨s, negated, before, arms⟩ := f
  cases arms with
  | nil =>
      obtain ⟨rest, rfl, heq⟩ := Option.map_eq_some_iff.1 h
      obtain ⟨rfl, rfl, rfl⟩ := heq
      rw [lowered, branches]
      exact ⟨before, {}, (append_empty _).symm, rfl⟩
  | cons arm rest =>
      obtain ⟨cond, body', pos⟩ := arm
      rw [lowered]
      dsimp only
      rcases hcond : s.checker.scalar s.vars cond none none "condition" with ⟨_ | v, ds⟩
      · simp [block?, hcond] at h
      · by_cases hv : ∃ d, v = .dynamic d
        · obtain ⟨d, rfl⟩ := hv
          rw [branches_of_dynamic hcond]
          simp only [block?, hcond, Option.some.injEq, Prod.mk.injEq] at h
          obtain ⟨rfl, rfl, rfl⟩ := h
          obtain ⟨more, hmore⟩ := lowered_append base otherwise rest _ _ _
          exact ⟨before ++ notes ds, more, hmore, rfl⟩
        · have hstatic : ∀ d, v ≠ .dynamic d := fun d hd => hv ⟨d, hd⟩
          rw [block?_static otherwise hcond hstatic] at h
          split at h
          · next htest =>
              simp only [Option.some.injEq, Prod.mk.injEq] at h
              obtain ⟨rfl, rfl, rfl⟩ := h
              rw [branches_of_static hcond hstatic, if_pos htest]
              exact ⟨before ++ notes ds, {}, (append_empty _).symm, rfl⟩
          · simp at h

/-- What came before a choice lies within it. -/
theorem Fork.before_within (base : Nat) (otherwise : Option (List Stmt)) (arms : List Branch)
    (s : Surroundings) (negated : List Dynamic) (before : Emitted) :
    before.Within (Fork.lowered base otherwise ⟨s, negated, before, arms⟩).out := by
  obtain ⟨more, hmore⟩ := lowered_append base otherwise arms s negated before
  rw [hmore]
  exact .left _ _

/-- The block that a fork runs lies within the choice. -/
theorem Fork.block?_within {otherwise : Option (List Stmt)} {f : Fork} {s₁ : Surroundings}
    {base₁ : Nat} {body : List Stmt} (h : f.block? base otherwise = some (s₁, base₁, body)) :
    (block s₁ base₁ body).out.Within (f.lowered base otherwise).out := by
  obtain ⟨pre, post, hout, -⟩ := block?_between h
  rw [hout]
  exact (Within.right _ _).trans (.left _ _)

/-- A block is its first statement and what comes after it. -/
theorem block_append (s : Surroundings) (base : Nat) (st : Stmt) (rest : List Stmt) :
    ∃ more, (s.block base (st :: rest)).out = (s.stmt base st).out ++ more := by
  rw [block]
  dsimp only
  split <;> exact ⟨_, rfl⟩

/-- A statement lies within the block it starts. -/
theorem stmt_within (s : Surroundings) (base : Nat) (st : Stmt) (rest : List Stmt) :
    (s.stmt base st).out.Within (s.block base (st :: rest)).out := by
  obtain ⟨more, hmore⟩ := block_append s base st rest
  rw [hmore]
  exact .left _ _

/-- The steps and the problems of the statements that lowering comes to are among those of the
block. -/
theorem Reaches.within (h : Reaches s base stmts s' base' stmts') :
    (s'.block base' stmts').out.Within (s.block base stmts).out := by
  induction h with
  | here => exact .refl _
  | arm hf hbody _ ih =>
      refine ih.trans (.trans ?_ (stmt_within _ _ _ _))
      rw [stmt_choose]
      exact (Fork.block?_within hbody).trans (by rw [Fork.lowered_leads _ hf]; exact .refl _)
  | @loop s s' base base' n count factor ds body rest stmts pos hcount _ ih =>
      refine ih.trans (.trans ?_ (stmt_within _ _ _ _))
      rw [stmt, hcount]
      cases hflow : (block { s with loops := s.loops + 1 } base body).flow with
      | leaveLoop => simpa [hflow] using Within.right _ _
      | finish => simpa [hflow] using Within.right _ _
      | _ => simpa [hflow] using (Within.repeatBody _ _ _ _).trans (Within.right _ _)
  | later hflow _ ih =>
      refine ih.trans ?_
      conv => rhs; rw [block]
      simp only [hflow, if_true]
      exact .right _ _

/-- The steps and the problems of a chain statement are among those of the block. -/
theorem Comes.within (h : Comes s base stmts s' ch) :
    ∃ base', (s'.chain base' ch).Within (s.block base stmts).out := by
  obtain ⟨base', pos, rest, hreach⟩ := h.reaches
  refine ⟨base', .trans ?_ hreach.within⟩
  rw [block, stmt]
  exact .left _ _

end Surroundings

end EffectChain
