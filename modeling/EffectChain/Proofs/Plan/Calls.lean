import EffectChain.Proofs.Plan.Dependency
import EffectChain.Proofs.Plan.Outs

/-!
# EffectChain.Proofs.Plan.Calls

The calls that steps are made of.

A step of a program is that of a call of a chain: of a chain statement that lowering comes to, or
of one that is given for a surface in such a call, however deep.

* `Surroundings.Reaches.keeps` — what binding keeps holds of the variables wherever lowering comes
  to;
* `Site` — where a call stands and with what it is lowered;
* `Program.exists_site` — every step of a plan is that of a call at a site of its program, and what
  is found at the site is reported.
-/

namespace EffectChain

open Emitted

/-- What is in the body of an arm is in the arms. -/
theorem Stmt.exprsBlock_subset {arms : List Branch} {arm : Branch} (h : arm ∈ arms) :
    exprsBlock arm.body ⊆ exprsArms arms := by
  obtain ⟨as, bs, rfl⟩ := List.append_of_mem h
  obtain ⟨cond, body, pos⟩ := arm
  intro e he
  simp [exprsArms, he]

namespace Surroundings

/-! ## what variables keep -/

/-- What holds of variables after every binding that reports nothing but `ds`, if it holds before it
and the value that is bound is as it has to be. -/
structure Binds (ds : List Diagnostic) (B : Expr → Prop) (I : Bindings → Prop) : Prop where
  bind : ∀ vars name value, I vars → B value → (vars.bind name value).2 ⊆ ds →
    I (vars.bind name value).1

variable {ds : List Diagnostic} {B : Expr → Prop} {I : Bindings → Prop}

mutual

/-- A statement keeps what its bindings keep. -/
theorem keeps_stmt (hI : Binds ds B I) (st : Stmt) (s : Surroundings) (base : Nat) (hs : I s.vars)
    (hst : ∀ e ∈ st.exprs, B e) (hds : (s.stmt base st).out.problems ⊆ ds) :
    I (s.stmt base st).vars := by
  cases st with
  | bind name value pos =>
      rw [stmt] at hds ⊢
      exact hI.bind s.vars name value hs (hst value (by simp [Stmt.exprs])) (by simpa using hds)
  | run ch pos =>
      rw [stmt]
      exact hs
  | choose arms otherwise pos =>
      rw [stmt_choose] at hds ⊢
      cases otherwise with
      | none =>
          exact keeps_branches hI none arms s base [] {} hs
            (fun e he => hst e (by simpa [Stmt.exprs] using he))
            (by simp) hds
      | some body =>
          refine keeps_branches hI (some body) arms s base [] {} hs
            (fun e he => hst e (by simp [Stmt.exprs, he]))
            ?_ hds
          rintro body' ⟨⟩ s' base' hs' hds'
          exact keeps_block hI body s' base' hs' (fun e he => hst e (by simp [Stmt.exprs, he])) hds'
  | repeated count body pos =>
      rw [stmt] at hds ⊢
      rcases hcount : s.loopCount count pos with ⟨_ | ⟨_ | n, factor⟩, ds'⟩
      · exact hs
      · exact hs
      · have hbody := keeps_block hI body { s with loops := s.loops + 1 } base hs
          fun e he => hst e (by simpa [Stmt.exprs] using he)
        rw [hcount] at hds
        dsimp only at hds ⊢
        cases hflow : (block { s with loops := s.loops + 1 } base body).flow
          <;> simp only [hflow] at hds ⊢
        case leaveLoop | finish => exact hbody (List.append_subset.1 hds).2
        case onward | nextRound =>
          exact hbody (List.Subset.trans (Within.repeatBody _ _ _ _).problems
            (List.append_subset.1 hds).2)
  | leaveLoop pos =>
      rw [stmt]
      split <;> exact hs
  | nextRound pos =>
      rw [stmt]
      split <;> exact hs
  | finish pos =>
      rw [stmt]
      exact hs

/-- A block keeps what its bindings keep. -/
theorem keeps_block (hI : Binds ds B I) (stmts : List Stmt) (s : Surroundings) (base : Nat)
    (hs : I s.vars) (hstmts : ∀ e ∈ Stmt.exprsBlock stmts, B e)
    (hds : (s.block base stmts).out.problems ⊆ ds) :
    I (s.block base stmts).vars := by
  cases stmts with
  | nil =>
      rw [block]
      exact hs
  | cons st rest =>
      have hfirst := keeps_stmt hI st s base hs fun e he => hstmts e (by simp [Stmt.exprsBlock, he])
      rw [block] at hds ⊢
      dsimp only at hds ⊢
      split
      · next hflow =>
          rw [if_pos hflow] at hds
          obtain ⟨hds, hmore⟩ := List.append_subset.1 hds
          exact keeps_block hI rest _ _ (hfirst hds)
            (fun e he => hstmts e (by simp [Stmt.exprsBlock, he])) hmore
      · next hflow =>
          rw [if_neg hflow] at hds
          exact hfirst (List.append_subset.1 hds).1

/-- The arms of a choice keep what their bindings keep. -/
theorem keeps_branches (hI : Binds ds B I) (otherwise : Option (List Stmt)) (arms : List Branch)
    (s : Surroundings) (base : Nat) (negated : List Dynamic) (before : Emitted) (hs : I s.vars)
    (harms : ∀ e ∈ Stmt.exprsArms arms, B e)
    (hother : ∀ body ∈ otherwise, ∀ (s : Surroundings) base, I s.vars →
      (s.block base body).out.problems ⊆ ds →
      I (s.block base body).vars)
    (hds : (s.branches base negated before (orElse base otherwise) arms).out.problems ⊆ ds) :
    I (s.branches base negated before (orElse base otherwise) arms).vars := by
  cases arms with
  | nil =>
      rw [branches] at hds ⊢
      cases otherwise with
      | none => exact hs
      | some body => exact hother body rfl _ _ hs (List.append_subset.1 hds).2
  | cons arm rest =>
      obtain ⟨cond, body, pos⟩ := arm
      have hrest : ∀ e ∈ Stmt.exprsArms rest, B e :=
        fun e he => harms e (by simp [Stmt.exprsArms, he])
      have hbody : ∀ e ∈ Stmt.exprsBlock body, B e :=
        fun e he => harms e (by simp [Stmt.exprsArms, he])
      rcases hcond : s.checker.scalar s.vars cond none none "condition" with ⟨_ | v, ds'⟩
      · rw [branches_of_none hcond] at hds ⊢
        exact keeps_branches hI otherwise rest s base negated _ hs hrest hother hds
      · by_cases hv : ∃ d, v = .dynamic d
        · obtain ⟨d, rfl⟩ := hv
          rw [branches_of_dynamic hcond] at hds ⊢
          have harm := List.Subset.trans (Fork.before_within base otherwise rest _ _ _).problems hds
          exact keeps_branches hI otherwise rest _ base _ _
            (keeps_block hI body _ _ hs hbody (List.append_subset.1 harm).2) hrest hother hds
        · rw [branches_of_static hcond fun d hd => hv ⟨d, hd⟩] at hds ⊢
          split
          · next htest =>
              rw [if_pos htest] at hds
              exact keeps_block hI body _ _ hs hbody (List.append_subset.1 hds).2
          · next htest =>
              rw [if_neg htest] at hds
              exact keeps_branches hI otherwise rest s base negated _ hs hrest hother hds

end

variable {s s' : Surroundings} {base base' : Nat} {stmts stmts' : List Stmt}

/-- A block of a conditional is lowered with the checker and the variables of its arm. -/
theorem Fork.block?_surroundings {otherwise : Option (List Stmt)} {f : Fork} {s₁ : Surroundings}
    {base₁ : Nat} {body : List Stmt} (h : f.block? base otherwise = some (s₁, base₁, body)) :
    s₁.checker = f.s.checker ∧ s₁.vars = f.s.vars := by
  unfold Fork.block? at h
  split at h
  · obtain ⟨body', -, heq⟩ := Option.map_eq_some_iff.1 h
    obtain ⟨rfl, -, -⟩ := heq
    exact ⟨rfl, rfl⟩
  · split at h
    · cases h
    · cases h
      exact ⟨rfl, rfl⟩
    · split at h
      · cases h
        exact ⟨rfl, rfl⟩
      · cases h

/-- The next fork of a choice keeps what its bindings keep. -/
theorem Fork.keeps_next? (hI : Binds ds B I) {otherwise : Option (List Stmt)} {f g : Fork}
    (h : f.next? base = some g) (hs : I f.s.vars) (harms : ∀ e ∈ Stmt.exprsArms f.arms, B e)
    (hds : (f.lowered base otherwise).out.problems ⊆ ds) :
    g.s.checker = f.s.checker ∧ I g.s.vars := by
  obtain ⟨s, negated, before, arms⟩ := f
  cases arms with
  | nil => simp [next?] at h
  | cons arm rest =>
      obtain ⟨cond, body, pos⟩ := arm
      rcases hcond : s.checker.scalar s.vars cond none none "condition" with ⟨_ | v, ds'⟩
      · simp only [next?, hcond, Option.some.injEq] at h
        subst h
        exact ⟨rfl, hs⟩
      · by_cases hv : ∃ d, v = .dynamic d
        · obtain ⟨d, rfl⟩ := hv
          have hblock : block? base otherwise ⟨s, negated, before, ⟨cond, body, pos⟩ :: rest⟩ =
              some ({ s with guards := s.guards ++ negated ++ [d] },
                base + (before ++ notes ds').steps.length, body) := by
            simp only [block?, hcond]
          simp only [next?, hcond, Option.some.injEq] at h
          subst h
          exact ⟨rfl, keeps_block hI body _ _ hs
            (fun e he => harms e (by simp [Stmt.exprsArms, he]))
            (List.Subset.trans (Fork.block?_within hblock).problems hds)⟩
        · rw [next?_static hcond fun d hd => hv ⟨d, hd⟩] at h
          split at h
          · cases h
          · obtain rfl := Option.some.inj h
            exact ⟨rfl, hs⟩

/-- The next fork has no other expressions. -/
theorem Fork.exprs_next? {f g : Fork} (h : f.next? base = some g) :
    Stmt.exprsArms g.arms ⊆ Stmt.exprsArms f.arms := by
  obtain ⟨before, hsuffix⟩ := Fork.arms_of_next? h
  rw [← hsuffix, Stmt.exprsArms_append]
  exact List.subset_append_right _ _

/-- Every fork a choice leads to keeps what the bindings keep. -/
theorem Fork.Leads.keeps (hI : Binds ds B I) (otherwise : Option (List Stmt)) {f g : Fork}
    (h : Leads base f g) (hs : I f.s.vars) (harms : ∀ e ∈ Stmt.exprsArms f.arms, B e)
    (hds : (f.lowered base otherwise).out.problems ⊆ ds) :
    g.s.checker = f.s.checker ∧ I g.s.vars := by
  induction h using Relation.ReflTransGen.head_induction_on with
  | refl => exact ⟨rfl, hs⟩
  | head hnext _ ih =>
      obtain ⟨hchecker, hvars⟩ := Fork.keeps_next? hI hnext hs harms hds
      obtain ⟨hchecker', hvars'⟩ := ih hvars (fun e he => harms e (Fork.exprs_next? hnext he))
        (by rwa [Fork.lowered_next? otherwise hnext])
      exact ⟨hchecker'.trans hchecker, hvars'⟩

/-- What binding keeps holds of the variables wherever lowering comes to, and the values that are
bound there are as they have to be. -/
theorem Reaches.keeps (hI : Binds ds B I) (h : Reaches s base stmts s' base' stmts') (hs : I s.vars)
    (hstmts : ∀ e ∈ Stmt.exprsBlock stmts, B e) (hds : (s.block base stmts).out.problems ⊆ ds) :
    s'.checker = s.checker ∧ I s'.vars ∧ ∀ e ∈ Stmt.exprsBlock stmts', B e := by
  induction h with
  | here => exact ⟨rfl, hs, hstmts⟩
  | @arm s s₁ s' base base₁ base' arms otherwise pos rest body stmts f hf hbody _ ih =>
      have hfirst : ∀ e ∈ (Stmt.choose arms otherwise pos).exprs, B e :=
        fun e he => hstmts e (by simp [Stmt.exprsBlock, he])
      have harms : ∀ e ∈ Stmt.exprsArms arms, B e := fun e he =>
        hfirst e (by cases otherwise <;> simp [Stmt.exprs, he])
      have hwithin :=
        List.Subset.trans (stmt_within s base (.choose arms otherwise pos) rest).problems hds
      rw [stmt_choose] at hwithin
      obtain ⟨hchecker, hvars⟩ := hf.keeps hI otherwise hs harms hwithin
      obtain ⟨hchecker₁, hvars₁⟩ := Fork.block?_surroundings hbody
      have hexprs : ∀ e ∈ Stmt.exprsBlock body, B e := by
        rcases Fork.block?_source hf hbody with ⟨arm, harm, rfl⟩ | rfl
        · exact fun e he => harms e (Stmt.exprsBlock_subset harm he)
        · exact fun e he => hfirst e (by simp [Stmt.exprs, he])
      obtain ⟨hchecker', hrest⟩ := ih (by rwa [hvars₁]) hexprs
        (List.Subset.trans (Fork.block?_within hbody).problems (by rwa [Fork.lowered_leads _ hf]))
      exact ⟨hchecker'.trans (hchecker₁.trans hchecker), hrest⟩
  | @loop s s' base base' n count factor ds' body rest stmts pos hcount h ih =>
      have hwithin : (block { s with loops := s.loops + 1 } base body).out.Within
          (s.block base (.repeated count body pos :: rest)).out :=
            Reaches.within (.loop hcount .here)
      obtain ⟨hchecker, hrest⟩ :=
        ih hs (fun e he => hstmts e (by simp [Stmt.exprsBlock, Stmt.exprs, he]))
        (List.Subset.trans hwithin.problems hds)
      exact ⟨hchecker, hrest⟩
  | @later s s' base base' st rest stmts hflow h ih =>
      have hfirst :=
        keeps_stmt hI st s base hs (fun e he => hstmts e (by simp [Stmt.exprsBlock, he]))
        (List.Subset.trans (stmt_within s base st rest).problems hds)
      have hwithin :
          (block { s with vars := (s.stmt base st).vars } (base + (s.stmt base st).out.steps.length)
          rest).out.Within (s.block base (st :: rest)).out := Reaches.within (.later hflow .here)
      obtain ⟨hchecker, hrest⟩ := ih hfirst (fun e he => hstmts e (by simp [Stmt.exprsBlock, he]))
        (List.Subset.trans hwithin.problems hds)
      exact ⟨hchecker, hrest⟩

/-- Lowering does not change what a program is checked against. -/
theorem Reaches.checker (h : Reaches s base stmts s' base' stmts') : s'.checker = s.checker :=
  (h.keeps (B := fun _ => True) (I := fun _ => True) ⟨fun _ _ _ _ _ _ => trivial⟩ trivial
    (fun _ _ => trivial) (List.Subset.refl _)).1

/-! ## the steps of a chain -/

/-- A call that becomes a step is that of the operation it refers to. -/
theorem resolve?_of_taken {begun : Bool} {cs : List Call} {c : Call} {spec : OpSpec}
    (h : (c, spec) ∈ s.taken begun cs) : resolve? s.checker.registry c = some spec := by
  fun_induction taken s begun cs <;> grind

variable {sub : LowerChain} {st : Step} {ch : Chain}

/-- An expression is given for a surface in a call of a chain. -/
def Gives (s : Surroundings) (e e' : Expr) : Prop :=
  ∃ ch, (s.vars.deref e).asChain? = some ch ∧ ∃ call ∈ s.taken false (s.vars.expandChain ch).1,
    ∃ a ∈ call.2.args, a.type = .surface ∧ (s.given call.1 call.2).get? a.name = some e'

/-- Only a chain that is given for a surface brings steps with it. -/
theorem mem_argument {a : ArgSpec} {e : Expr} (h : st ∈ (s.argument sub base a e).1.steps) :
    a.type = .surface ∧ ∃ ch, (s.vars.deref e).asChain? = some ch ∧ st ∈ (sub base ch).1.steps := by
  unfold argument at h
  dsimp only at h
  cases ht : a.type with
  | surface =>
      rw [ht] at h
      refine ⟨rfl, ?_⟩
      unfold surfaceArg at h
      dsimp only at h
      split at h
      · simp at h
      · split at h <;> simp at h
      · next c hc => exact ⟨_, by rw [hc]; rfl, h⟩
      · next ch hch => exact ⟨ch, by rw [hch]; rfl, h⟩
      · simp at h
      · simp at h
  | string =>
      rw [ht] at h
      dsimp only at h
      split at h <;> simp at h
  | _ => simp [ht] at h

/-- A step of one more argument is an earlier one or one of its nested chain. -/
theorem mem_take {given : Table Expr} {r : Arguments} {a : ArgSpec}
    (h : st ∈ (Arguments.take s sub base given r a).out.steps) :
    st ∈ r.out.steps ∨ a.type = .surface ∧ ∃ e ch base', given.get? a.name = some e ∧
      (s.vars.deref e).asChain? = some ch ∧ st ∈ (sub base' ch).1.steps ∧
      (sub base' ch).1.problems ⊆ (Arguments.take s sub base given r a).out.problems := by
  have hwritten : ∀ {e out v}, given.get? a.name = some e →
      s.argument sub (base + r.out.steps.length) a e = (out, v) → st ∈ out.steps →
      a.type = .surface ∧ ∃ e ch base', given.get? a.name = some e ∧ (s.vars.deref e).asChain? =
        some ch ∧
        st ∈ (sub base' ch).1.steps ∧ (sub base' ch).1.problems ⊆ out.problems := by
    intro e out v hget harg hst
    obtain ⟨ha, ch, hch, hsub⟩ := mem_argument (by rw [harg]; exact hst)
    have hout := congrArg Prod.fst (argument_chain (s := s) sub (base + r.out.steps.length) ha hch)
    rw [harg] at hout
    exact ⟨ha, e, ch, _, hget, hch, hsub, by rw [← hout]; exact List.Subset.refl _⟩
  rcases take_cases s sub base given r a with ⟨e, out, v, hget, harg, htake⟩
    | ⟨out, hunwritten, htake⟩
  · rw [htake] at h ⊢
    refine (List.mem_append.1 h).imp_right fun hst => ?_
    obtain ⟨ha, e', ch, base', hget', hch, hsub, hproblems⟩ := hwritten hget harg hst
    exact ⟨ha, e', ch, base', hget', hch, hsub, List.subset_append_of_subset_right _ hproblems⟩
  · have hsteps : st ∈ r.out.steps ∨ st ∈ out.steps := by
      rcases htake with ⟨v, -, htake⟩ | htake <;> rw [htake] at h <;> exact List.mem_append.1 h
    have hproblems : out.problems ⊆ (Arguments.take s sub base given r a).out.problems := by
      rcases htake with ⟨v, -, htake⟩ | htake <;> rw [htake] <;> exact List.subset_append_right _ _
    refine hsteps.imp_right fun hst => ?_
    rcases hunwritten with ⟨-, rfl⟩ | ⟨e, hget, harg⟩
    · simp at hst
    · obtain ⟨ha, e', ch, base', hget', hch, hsub, hout⟩ := hwritten hget harg hst
      exact ⟨ha, e', ch, base', hget', hch, hsub, List.Subset.trans hout hproblems⟩

/-- The value that is written for an argument and accepted. -/
def written? (s : Surroundings) (sub : LowerChain) (base : Nat) (given : Table Expr) (a : ArgSpec) :
    Option Value :=
  (given.get? a.name).bind fun e => (s.argument sub base a e).2

/-- An argument has the value that is written for it, else its default; it is explicit if the
former. -/
theorem take_written (s : Surroundings) (sub : LowerChain) (base : Nat) (given : Table Expr)
    (r : Arguments) (a : ArgSpec) : ∃ base',
    (∀ name, (Arguments.take s sub base given r a).values.get? name = if name = a.name then
      ((s.written? sub base' given a).or (s.checker.defaultValue a)).or (r.values.get? name)
        else r.values.get? name) ∧
    (Arguments.take s sub base given r a).explicit =
      r.explicit ++ (if (s.written? sub base' given a).isSome then [a.name] else []) ∧
    ∀ e, given.get? a.name = some e →
      (s.argument sub base' a e).1.problems ⊆
        (Arguments.take s sub base given r a).out.problems := by
  refine ⟨base + r.out.steps.length, ?_⟩
  unfold Arguments.take written?
  dsimp only
  cases hget : given.get? a.name with
  | none => cases s.checker.defaultValue a <;> simp
  | some e =>
      rcases harg : s.argument sub (base + r.out.steps.length) a e with ⟨out, _ | v⟩
      · cases s.checker.defaultValue a <;> simp [harg]
      · simp [harg]

/-- The arguments of a call, one by one. -/
theorem arguments_written (s : Surroundings) (sub : LowerChain) (base : Nat) (c : Call)
    {spec : OpSpec} (hnames : (spec.args.map (·.name)).Nodup) {a : ArgSpec} (ha : a ∈ spec.args) :
    ∃ base',
    (s.arguments sub base c spec).values.get? a.name =
      (s.written? sub base' (s.given c spec) a).or (s.checker.defaultValue a) ∧
    (a.name ∈ (s.arguments sub base c spec).explicit ↔
      (s.written? sub base' (s.given c spec) a).isSome) ∧
    ∀ e, (s.given c spec).get? a.name = some e →
      (s.argument sub base' a e).1.problems ⊆ (s.arguments sub base c spec).out.problems := by
  -- the arguments before it and after it have other names
  have hother : ∀ (as : List ArgSpec) (r : Arguments), a.name ∉ as.map (·.name) →
      (as.foldl (Arguments.take s sub base (s.given c spec)) r).values.get? a.name =
        r.values.get? a.name ∧
      (a.name ∈ (as.foldl (Arguments.take s sub base (s.given c spec)) r).explicit ↔
          a.name ∈ r.explicit) := by
    intro as
    induction as with
    | nil => exact fun r _ => ⟨rfl, Iff.rfl⟩
    | cons b as ih =>
        intro r hb
        rw [List.map_cons, List.mem_cons, not_or] at hb
        obtain ⟨base', hvalues, hexplicit, -⟩ := s.take_written sub base (s.given c spec) r b
        obtain ⟨hvalue, hmem⟩ := ih (Arguments.take s sub base (s.given c spec) r b) hb.2
        rw [List.foldl_cons, hvalue, hmem, hvalues, hexplicit, if_neg hb.1]
        refine ⟨rfl, ?_⟩
        split <;> simp [hb.1]
  obtain ⟨as, bs, hargs⟩ := List.append_of_mem ha
  rw [hargs, List.map_append, List.map_cons, List.nodup_append, List.nodup_cons] at hnames
  obtain ⟨-, ⟨hafter, -⟩, hdisjoint⟩ := hnames
  have hbefore : a.name ∉ as.map (·.name) := fun h => hdisjoint _ h _ List.mem_cons_self rfl
  unfold arguments
  rw [hargs, List.foldl_append, List.foldl_cons]
  obtain ⟨hvalue, hmem⟩ := hother as _ hbefore
  obtain ⟨base', hvalues, hexplicit, hproblems⟩ := s.take_written sub base (s.given c spec)
    (as.foldl (Arguments.take s sub base (s.given c spec)) _) a
  obtain ⟨hvalue', hmem'⟩ := hother bs (Arguments.take s sub base (s.given c spec) _ a) hafter
  refine ⟨base', ?_, ?_, fun e he => ?_⟩
  · rw [hvalue', hvalues, if_pos rfl, hvalue]
    simp
  · rw [hmem', hexplicit, List.mem_append, hmem]
    split <;> simp_all
  · exact List.Subset.trans (hproblems e he) (among_foldl_take base _ bs _).problems

/-- Every argument that is written is one of the operation. -/
theorem mem_explicit {c : Call} {spec : OpSpec} {name : String}
    (h : name ∈ (s.arguments sub base c spec).explicit) : ∃ a ∈ spec.args, a.name = name := by
  have hfold : ∀ (as : List ArgSpec) (r : Arguments),
      name ∈ (as.foldl (Arguments.take s sub base (s.given c spec)) r).explicit →
      name ∈ r.explicit ∨ ∃ a ∈ as, a.name = name := by
    intro as
    induction as with
    | nil => exact fun r h => .inl h
    | cons a as ih =>
        intro r h
        rcases ih _ h with h | ⟨b, hb, rfl⟩
        · obtain ⟨base', -, hexplicit, -⟩ := s.take_written sub base (s.given c spec) r a
          rw [hexplicit, List.mem_append] at h
          refine h.imp_right fun h => ⟨a, List.mem_cons_self, ?_⟩
          split at h <;> simp_all
        · exact .inr ⟨b, List.mem_cons_of_mem a hb, rfl⟩
  exact (hfold spec.args _ h).resolve_left (by simp)

/-- The steps of the arguments of a call are those of the chains that are given for surfaces. -/
theorem mem_arguments {c : Call} {spec : OpSpec}
    (h : st ∈ (s.arguments sub base c spec).out.steps) :
    ∃ a ∈ spec.args, a.type = .surface ∧ ∃ e ch base', (s.given c spec).get? a.name = some e ∧
      (s.vars.deref e).asChain? = some ch ∧ st ∈ (sub base' ch).1.steps ∧
      (sub base' ch).1.problems ⊆ (s.arguments sub base c spec).out.problems := by
  have hfold : ∀ (as : List ArgSpec) (r : Arguments),
      st ∈ (as.foldl (Arguments.take s sub base (s.given c spec)) r).out.steps →
      st ∈ r.out.steps ∨ ∃ a ∈ as, a.type = .surface ∧ ∃ e ch base',
        (s.given c spec).get? a.name = some e ∧
        (s.vars.deref e).asChain? = some ch ∧ st ∈ (sub base' ch).1.steps ∧
        (sub base' ch).1.problems ⊆
            (as.foldl (Arguments.take s sub base (s.given c spec)) r).out.problems := by
    intro as
    induction as with
    | nil => exact fun r h => .inl h
    | cons a as ih =>
        intro r h
        rcases ih _ h with h | ⟨a', ha', hrest⟩
        · refine (mem_take h).imp_right fun ⟨ha, e, ch, base', hget, hch, hsub, hproblems⟩ => ?_
          exact ⟨a, List.mem_cons_self, ha, e, ch, base', hget, hch, hsub,
            List.Subset.trans hproblems (among_foldl_take base _ as _).problems⟩
        · exact .inr ⟨a', List.mem_cons_of_mem a ha', hrest⟩
  exact (hfold spec.args _ h).resolve_left (by simp)

/-- A step of the calls of a chain is that of a call, or of one of its arguments. -/
theorem mem_foldl_next {cs : List Call} {p : Progress}
    (h : st ∈ (cs.foldl (Progress.next s sub base) p).out.steps) :
    st ∈ p.out.steps ∨ ∃ c spec base' source, (c, spec) ∈ s.taken p.last.isSome cs ∧
      (s.arguments sub base' c spec).out.problems ⊆
        (cs.foldl (Progress.next s sub base) p).out.problems ∧
      (st = s.stepOf sub base' c spec source ∨ st ∈ (s.arguments sub base' c spec).out.steps) := by
  induction cs generalizing p with
  | nil => exact .inl h
  | cons c cs ih =>
      rw [List.foldl_cons] at h ⊢
      rcases next_cases s sub base p c with ⟨spec, htaken, hout, hlast⟩ | ⟨htaken, hlast, ds, hout⟩
      · rcases ih h with h | ⟨c', spec', base', source, hc', hrest⟩
        · rw [hout, steps_append, steps_append, List.mem_append, List.mem_append,
            List.mem_singleton] at h
          refine h.imp_right fun h =>
            ⟨c, spec, _, p.last, by rw [htaken]; exact List.mem_cons_self, ?_, h.symm⟩
          refine List.Subset.trans ?_ (among_foldl_next base cs _).problems
          rw [hout]
          exact List.subset_append_of_subset_right _ (List.subset_append_left _ _)
        · refine .inr ⟨c', spec', base', source, ?_, hrest⟩
          rw [htaken]
          rw [hlast] at hc'
          exact List.mem_cons_of_mem _ hc'
      · rcases ih h with h | ⟨c', spec', base', source, hc', hrest⟩
        · rw [hout] at h
          exact .inl (by simpa using h)
        · exact .inr ⟨c', spec', base', source, by rw [htaken, ← hlast]; exact hc', hrest⟩

/-- The steps of a chain are those of its calls, whatever the last one is written to. -/
theorem mem_chainWith {isArgument : Bool} (h : st ∈ (s.chainWith sub isArgument base ch).1.steps) :
    ∃ out, { st with out } ∈ (s.calls sub base ch).out.steps := by
  rw [(s.steps_chainWith sub isArgument base ch).2] at h
  split at h
  · obtain ⟨st', hst', rfl⟩ := List.mem_map.1 h
    refine ⟨st'.out, ?_⟩
    split <;> exact hst'
  · exact ⟨st.out, h⟩

end Surroundings

/-! ## where calls stand -/

/-- A call with what it is lowered with: the expression it is a call of, the chain that this stands
for, the depth its arguments are lowered to, the number of steps before it and the one before it in
the chain. -/
structure Site where
  s : Surroundings
  e : Expr
  chain : Chain
  depth : Nat
  base : Nat
  call : Call
  spec : OpSpec
  source : Option Nat

namespace Site

/-- How the chains among the arguments are lowered. -/
def sub (x : Site) : LowerChain := x.s.subchain x.depth

def arguments (x : Site) : Surroundings.Arguments := x.s.arguments x.sub x.base x.call x.spec

def given (x : Site) : Table Expr := x.s.given x.call x.spec

def step (x : Site) : Step := x.s.stepOf x.sub x.base x.call x.spec x.source

/-- The step is that of the call, whatever it is written to and however often it runs. -/
def Makes (x : Site) (st : Step) : Prop :=
  st = { x.step with out := st.out, repetition := st.repetition }

/-- The call is one of a chain that is lowered to the end; what is found on the way is reported. -/
structure Stands (x : Site) (ds : List Diagnostic) : Prop where
  chain : (x.s.vars.deref x.e).asChain? = some x.chain
  taken : (x.call, x.spec) ∈ x.s.taken false (x.s.vars.expandChain x.chain).1
  ends : ¬ x.s.Deep (x.depth + 1) x.chain
  expanded : (x.s.vars.expandChain x.chain).2 ⊆ ds
  noted : x.arguments.out.problems ⊆ ds

theorem Stands.mono {x : Site} {ds ds' : List Diagnostic} (h : x.Stands ds) (hds : ds ⊆ ds') :
    x.Stands ds' :=
  { h with expanded := List.Subset.trans h.expanded hds, noted := List.Subset.trans h.noted hds }

end Site

namespace Site

variable {x : Site} {st : Step}

theorem Makes.of_out {out : Option Surface} (h : x.Makes { st with out }) : x.Makes st := by
  have hsame := congrArg (fun t : Step => { t with out := st.out }) h
  exact hsame

theorem Makes.of_repetition {r : Repeat} (h : x.Makes { st with repetition := r }) :
    x.Makes st := by
  have hsame := congrArg (fun t : Step => { t with repetition := st.repetition }) h
  exact hsame

end Site

namespace Surroundings

/-- A step of a chain is that of a call of the chain, or of one that is given in such a call. -/
theorem exists_site (s : Surroundings) (depth : Nat) (isArgument : Bool) (base : Nat) {e : Expr}
    {ch : Chain} (he : (s.vars.deref e).asChain? = some ch) (hends : ¬ s.Deep (depth + 1) ch)
    {st : Step} (hst : st ∈ (s.chainWith (s.subchain depth) isArgument base ch).1.steps) :
    ∃ x : Site, x.s = s ∧ Relation.ReflTransGen s.Gives e x.e ∧
      x.Stands (s.chainWith (s.subchain depth) isArgument base ch).1.problems ∧ x.Makes st := by
  induction depth using Nat.strong_induction_on generalizing isArgument base e ch st with
  | _ depth ih =>
      obtain ⟨out, hcalls⟩ := mem_chainWith hst
      obtain ⟨c, spec, base', source, htaken, hargs, hstep⟩ :=
        (mem_foldl_next hcalls).resolve_left (by simp)
      have hproblems := (s.chainWith_calls (s.subchain depth) isArgument base ch).2.1.subset
      rcases hstep with hown | hnested
      · refine ⟨⟨s, e, ch, depth, base', c, spec, source⟩, rfl, .refl,
          ⟨he, htaken, hends, ?_, ?_⟩, ?_⟩
        · have hbegun : (s.vars.expandChain ch).2 ⊆
              (s.calls (s.subchain depth) base ch).out.problems :=
            (among_foldl_next base (s.vars.expandChain ch).1
              { out := notes (s.vars.expandChain ch).2 }).problems
          exact List.Subset.trans hbegun hproblems
        · exact List.Subset.trans hargs hproblems
        · have hmakes : Site.Makes ⟨s, e, ch, depth, base', c, spec, source⟩ { st with out } := by
            rw [Site.Makes, hown]
            rfl
          exact hmakes.of_out
      · obtain ⟨a, hmem, ha, e', inner, base'', hgiven, hinner, hsub, hbelow⟩ :=
          mem_arguments hnested
        have hnests : s.Nests ch inner := ⟨(c, spec), htaken, a, hmem, ha, e', hgiven, hinner⟩
        cases depth with
        | zero => simp [subchain] at hsub
        | succ depth =>
            obtain ⟨x, hs, hgives, hstands, hmakes⟩ :=
              ih depth (Nat.lt_succ_self depth) true base'' hinner
              (fun hdeep => hends ⟨inner, hnests, hdeep⟩) hsub
            refine ⟨x, hs, .head ⟨ch, he, (c, spec), htaken, a, hmem, ha, hgiven⟩ hgives, ?_,
              hmakes.of_out⟩
            exact hstands.mono (List.Subset.trans hbelow (List.Subset.trans hargs hproblems))

end Surroundings

/-- The call stands in a program: in a chain statement that lowering comes to, or in a chain that is
given for a surface in a call of one, however deep.  What the program reports is `ds`. -/
structure Site.In (x : Site) (program : Program) (k : Checker) (ds : List Diagnostic) :
    Prop extends x.Stands ds where
  reports : (Surroundings.block { checker := k } 0 program.statements).out.problems = ds
  reached : ∃ base ch pos rest,
    Surroundings.Reaches { checker := k } 0 program.statements x.s base (.run ch pos :: rest) ∧
      Relation.ReflTransGen x.s.Gives (.chain ch) x.e

open Surroundings in
/-- Every step of a plan is that of a call of its program. -/
theorem Program.exists_site {program : Program} {registry : Registry} {options : Options} {p : Plan}
    (hplan : program.plan registry options = .ok p) {st : Step} (hst : st ∈ p.steps) :
    ∃ x : Site, x.In program { registry, suggest := options.suggest } p.diagnostics ∧
    x.Makes st := by
  obtain ⟨out, hblock, hsteps, hproblems, hends, -⟩ := Program.plan_block hplan
  have hgathers : Gathers fun _ steps => ∀ st ∈ steps,
      ∃ x : Site, x.In program { registry, suggest := options.suggest } p.diagnostics ∧
          x.Makes st :=
    .forall fun st r ⟨x, hin, hmakes⟩ =>
      ⟨x, hin, Site.Makes.of_repetition (r := st.repetition) hmakes⟩
  refine gathered_reached hgathers program.statements
    { checker := { registry, suggest := options.suggest } } 0 ?_ st
    (by rwa [hblock, ← hsteps])
  intro s base ch pos rest hreach st hst
  have hdeep : ¬ s.Deep (depthBound s.vars ch + 1) ch := by
    intro hdeep
    have hloops : Loops { checker := { registry, suggest := options.suggest } } 0
        program.statements :=
      ⟨s, ch, hreach.comes, (deep_iff_circular (Nat.le_succ _)).1 hdeep⟩
    rw [← circular_block, hblock, hends] at hloops
    cases hloops
  obtain ⟨x, rfl, hgives, hstands, hmakes⟩ :=
    Surroundings.exists_site s _ false base (e := .chain ch) rfl hdeep hst
  refine ⟨x, ⟨hstands.mono ?_, by rw [hblock, hproblems], base, ch, pos, rest, hreach, hgives⟩,
    hmakes⟩
  have hwithin := (stmt_within x.s base (.run ch pos) rest).trans hreach.within
  rw [hblock, stmt] at hwithin
  rw [hproblems]
  exact hwithin.problems

/-! ## the values at a site -/

namespace Site

variable {x : Site} {st : Step} {program : Program} {k : Checker} {ds : List Diagnostic}

theorem Makes.args (h : x.Makes st) : st.args = x.arguments.values := by rw [h]; rfl

theorem Makes.explicit (h : x.Makes st) : st.explicit = x.arguments.explicit := by rw [h]; rfl

theorem Makes.op (h : x.Makes st) : st.op = x.spec.name := by rw [h]; rfl

theorem Makes.pos (h : x.Makes st) : st.pos = x.call.pos := by rw [h]; rfl

/-- The value that is written for an argument and accepted, after `base` steps. -/
def written? (x : Site) (base : Nat) (a : ArgSpec) : Option Value :=
  x.s.written? x.sub base x.given a

theorem In.checker (h : x.In program k ds) : x.s.checker = k := by
  obtain ⟨base, ch, pos, rest, hreach, -⟩ := h.reached
  exact hreach.checker

/-- The operation of the call is registered. -/
theorem In.lookup (h : x.In program k ds) :
    ∃ spec, k.registry.ops.lookup? x.spec.name = some spec ∧ spec.args = x.spec.args := by
  rw [← h.checker]
  exact Surroundings.lookup_of_resolve? (Surroundings.resolve?_of_taken h.taken)

theorem In.nodup (h : x.In program k ds) (hr : k.registry.ops.Built) :
    (x.spec.args.map (·.name)).Nodup := by
  obtain ⟨spec, hspec, hargs⟩ := h.lookup
  rw [← hargs]
  exact hr.nodup hspec

/-- An argument has the value that is written for it, else its default.  It is explicit if it is
written, and what is found in it is reported. -/
theorem In.value (h : x.In program k ds) (hr : k.registry.ops.Built) {a : ArgSpec}
    (ha : a ∈ x.spec.args) :
    ∃ base, x.arguments.values.get? a.name = (x.written? base a).or (k.defaultValue a) ∧
      (a.name ∈ x.arguments.explicit ↔ (x.written? base a).isSome) ∧
      ∀ e, x.given.get? a.name = some e → (x.s.argument x.sub base a e).1.problems ⊆ ds := by
  obtain ⟨base, hvalue, hexplicit, hproblems⟩ :=
    x.s.arguments_written x.sub x.base x.call (h.nodup hr) ha
  rw [h.checker] at hvalue
  exact ⟨base, hvalue, hexplicit, fun e he => List.Subset.trans (hproblems e he) h.noted⟩

end Site

end EffectChain
