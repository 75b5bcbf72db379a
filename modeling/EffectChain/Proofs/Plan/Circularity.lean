import EffectChain.Proofs.Plan.Nesting

/-!
# EffectChain.Proofs.Plan.Circularity

Which programs can be planned to the end.

Variables in arguments are followed when the chain is lowered, so a chain statement
may lead back to itself through what its variables are bound to at that time.

* `plan_ends_iff` — planning comes to an end exactly when no chain statement that it
  comes to is circular; a circular one is lowered without end, whatever the depth.
-/

namespace EffectChain

open Emitted

namespace Surroundings

/-! ## the arms of a conditional -/

/-- The arms of a conditional that are left, with what came before them. -/
structure Fork where
  s : Surroundings
  negated : List Dynamic := []
  before : Emitted := {}
  arms : List Branch

namespace Fork

/-- The arms after the first one, unless that is taken in every frame. -/
def next? (base : Nat) (f : Fork) : Option Fork :=
  match f.arms with
  | [] => none
  | ⟨cond, body, _⟩ :: rest =>
    match f.s.checker.scalar f.s.vars cond none none "condition" with
    | (none, ds) => some { f with before := f.before ++ notes ds, arms := rest }
    | (some (.dynamic d), ds) =>
      let before := f.before ++ notes ds
      let r := block { f.s with guards := f.s.guards ++ f.negated ++ [d] }
        (base + before.steps.length) body
      some ⟨{ f.s with vars := r.vars }, f.negated ++ [d.not], before ++ r.out, rest⟩
    | (some v, ds) =>
      if (v.eval {}).truthy then none else some { f with before := f.before ++ notes ds,
                                                         arms := rest }

/-- The block that is lowered at the first arm, or behind the last one. -/
def block? (base : Nat) (otherwise : Option (List Stmt)) (f : Fork) :
    Option (Surroundings × Nat × List Stmt) :=
  match f.arms with
  | [] => otherwise.map fun body =>
      ({ f.s with guards := f.s.guards ++ f.negated }, base + f.before.steps.length, body)
  | ⟨cond, body, _⟩ :: _ =>
    match f.s.checker.scalar f.s.vars cond none none "condition" with
    | (none, _) => none
    | (some (.dynamic d), ds) =>
      some ({ f.s with guards := f.s.guards ++ f.negated ++ [d] },
        base + (f.before ++ notes ds).steps.length, body)
    | (some v, ds) =>
      if (v.eval {}).truthy then
        some ({ f.s with guards := f.s.guards ++ f.negated },
          base + (f.before ++ notes ds).steps.length, body)
      else none

/-- The arms that lowering comes to. -/
def Leads (base : Nat) : Fork → Fork → Prop :=
  Relation.ReflTransGen fun f f' => f.next? base = some f'

end Fork

/-- What happens behind the last arm. -/
def orElse (base : Nat) : Option (List Stmt) → Surroundings → List Dynamic → Emitted → Lowered
  | none => fun s _ before => { out := before, vars := s.vars }
  | some body => fun s negated before =>
    after before negated
      (block { s with guards := s.guards ++ negated } (base + before.steps.length) body)

theorem stmt_choose (s : Surroundings) (base : Nat) (arms : List Branch)
    (otherwise : Option (List Stmt)) (pos : Pos) :
    s.stmt base (.choose arms otherwise pos) = s.branches base [] {} (orElse base otherwise)
      arms := by
  cases otherwise <;> rw [stmt] <;> rfl

/-- One of the blocks that lowering comes to exceeds its depth. -/
def Fork.Exceeds (base : Nat) (otherwise : Option (List Stmt)) (f : Fork) : Prop :=
  ∃ g s₁ base₁ body, Fork.Leads base f g ∧ g.block? base otherwise = some (s₁, base₁, body) ∧
    (block s₁ base₁ body).out.circular = true

/-- It is the block of the first arm or one behind it. -/
theorem Fork.exceeds_iff (base : Nat) (otherwise : Option (List Stmt)) (f : Fork) :
    f.Exceeds base otherwise ↔
      (∃ s₁ base₁ body, f.block? base otherwise = some (s₁, base₁, body) ∧
        (block s₁ base₁ body).out.circular = true) ∨
      ∃ f', f.next? base = some f' ∧ f'.Exceeds base otherwise := by
  constructor
  · rintro ⟨g, s₁, base₁, body, hleads, hblock⟩
    rcases hleads.cases_head with rfl | ⟨f', hnext, hrest⟩
    · exact .inl ⟨s₁, base₁, body, hblock⟩
    · exact .inr ⟨f', hnext, g, s₁, base₁, body, hrest, hblock⟩
  · rintro (⟨s₁, base₁, body, hblock⟩ | ⟨f', hnext, g, s₁, base₁, body, hrest, hblock⟩)
    · exact ⟨f, s₁, base₁, body, .refl, hblock⟩
    · exact ⟨g, s₁, base₁, body, .head hnext hrest, hblock⟩

/-- The arms of a conditional exceed a depth when a block does that lowering comes to. -/
theorem circular_branches (base : Nat) (otherwise : Option (List Stmt)) (arms : List Branch)
    (s : Surroundings) (negated : List Dynamic) (before : Emitted) :
    (s.branches base negated before (orElse base otherwise) arms).out.circular = true ↔
      before.circular = true ∨ Fork.Exceeds base otherwise ⟨s, negated, before, arms⟩ := by
  induction arms generalizing s negated before with
  | nil =>
      rw [Fork.exceeds_iff, branches]
      cases otherwise <;> simp [orElse, after, Fork.block?, Fork.next?]
  | cons arm rest ih =>
      obtain ⟨cond, body, pos⟩ := arm
      rw [Fork.exceeds_iff, branches]
      simp only [Fork.block?, Fork.next?]
      cases hcond : s.checker.scalar s.vars cond none none "condition" with
      | mk v ds =>
          cases v with
          | none => simp [ih]
          | some v =>
              cases v with
              | dynamic d => simp [ih, or_assoc]
              | _ =>
                  dsimp only
                  split <;> simp [ih, after]

/-! ## the chain statements that lowering comes to -/

/-- Lowering the statements after `base` steps comes to a chain statement, with the
surroundings it has there. -/
inductive Comes : Surroundings → Nat → List Stmt → Surroundings → Chain → Prop
  | run {s : Surroundings} {base : Nat} {ch : Chain} {pos : Pos} {rest : List Stmt} :
      Comes s base (.run ch pos :: rest) s ch
  | arm {s s₁ s' : Surroundings} {base base₁ : Nat} {arms : List Branch}
      {otherwise : Option (List Stmt)}
      {pos : Pos} {rest body : List Stmt} {f : Fork} {ch : Chain}
      (hf : Fork.Leads base { s, arms } f)
        (hbody : f.block? base otherwise = some (s₁, base₁, body))
      (h : Comes s₁ base₁ body s' ch) : Comes s base (.choose arms otherwise pos :: rest) s' ch
  | loop {s s' : Surroundings} {base n : Nat} {count : Option Expr} {factor : Option Dynamic}
      {ds : List Diagnostic} {body rest : List Stmt} {pos : Pos} {ch : Chain}
      (hcount : s.loopCount count pos = (some (n + 1, factor), ds))
      (h : Comes { s with loops := s.loops + 1 } base body s' ch) :
      Comes s base (.repeated count body pos :: rest) s' ch
  | later {s s' : Surroundings} {base : Nat} {st : Stmt} {rest : List Stmt} {ch : Chain}
      (hflow : (s.stmt base st).flow = .onward)
      (h : Comes { s with vars := (s.stmt base st).vars } (base + (s.stmt base st).out.steps.length)
        rest s' ch) :
      Comes s base (st :: rest) s' ch

/-- Lowering the statements comes to a circular chain. -/
def Loops (s : Surroundings) (base : Nat) (stmts : List Stmt) : Prop :=
  ∃ s' ch, Comes s base stmts s' ch ∧ s'.Circular ch

theorem loops_nil (s : Surroundings) (base : Nat) : ¬ s.Loops base [] := by
  rintro ⟨s', ch, h, -⟩
  cases h

/-- The first statement leads to a circular chain, or it is not the last one and the
others do. -/
theorem loops_cons (s : Surroundings) (base : Nat) (st : Stmt) (rest : List Stmt) :
    s.Loops base (st :: rest) ↔ s.Loops base [st] ∨ (s.stmt base st).flow = .onward ∧
      Loops { s with vars := (s.stmt base st).vars } (base + (s.stmt base st).out.steps.length)
        rest := by
  constructor
  · rintro ⟨s', ch, h, hcircular⟩
    cases h with
    | run => exact .inl ⟨s, ch, .run, hcircular⟩
    | arm hf hbody h => exact .inl ⟨s', ch, .arm hf hbody h, hcircular⟩
    | loop hcount h => exact .inl ⟨s', ch, .loop hcount h, hcircular⟩
    | later hflow h => exact .inr ⟨hflow, s', ch, h, hcircular⟩
  · rintro (⟨s', ch, h, hcircular⟩ | ⟨hflow, s', ch, h, hcircular⟩)
    · refine ⟨s', ch, ?_, hcircular⟩
      cases h with
      | run => exact .run
      | arm hf hbody h => exact .arm hf hbody h
      | loop hcount h => exact .loop hcount h
      | later hflow h => cases h
    · exact ⟨s', ch, .later hflow h, hcircular⟩

/-- A chain as a statement loops when it is circular. -/
theorem loops_run (s : Surroundings) (base : Nat) (ch : Chain) (pos : Pos) :
    s.Loops base [.run ch pos] ↔ s.Circular ch := by
  constructor
  · rintro ⟨s', ch', h, hcircular⟩
    cases h with
    | run => exact hcircular
    | later hflow h => cases h
  · exact fun h => ⟨s, ch, .run, h⟩

/-- A choice loops when one of the blocks it may run does. -/
theorem loops_choose (s : Surroundings) (base : Nat) (arms : List Branch)
    (otherwise : Option (List Stmt)) (pos : Pos) : s.Loops base [.choose arms otherwise pos] ↔
      ∃ f s₁ base₁ body, Fork.Leads base { s, arms } f ∧ f.block? base otherwise =
        some (s₁, base₁, body) ∧
        s₁.Loops base₁ body := by
  constructor
  · rintro ⟨s', ch, h, hcircular⟩
    cases h with
    | arm hf hbody h => exact ⟨_, _, _, _, hf, hbody, s', ch, h, hcircular⟩
    | later hflow h => cases h
  · rintro ⟨f, s₁, base₁, body, hf, hbody, s', ch, h, hcircular⟩
    exact ⟨s', ch, .arm hf hbody h, hcircular⟩

/-- A loop that counts loops when its body does. -/
theorem loops_repeated (s : Surroundings) (base : Nat) (count : Option Expr) (body : List Stmt)
    (pos : Pos) :
    s.Loops base [.repeated count body pos] ↔
      ∃ n factor ds, s.loopCount count pos = (some (n + 1, factor), ds) ∧
        Loops { s with loops := s.loops + 1 } base body := by
  constructor
  · rintro ⟨s', ch, h, hcircular⟩
    cases h with
    | loop hcount h => exact ⟨_, _, _, hcount, s', ch, h, hcircular⟩
    | later hflow h => cases h
  · rintro ⟨n, factor, ds, hcount, s', ch, h, hcircular⟩
    exact ⟨s', ch, .loop hcount h, hcircular⟩

/-- A statement that is no chain, no conditional and no loop leads to none. -/
theorem not_loops_simple (s : Surroundings) (base : Nat) (st : Stmt)
    (hst : (∀ ch pos, st ≠ .run ch pos) ∧ (∀ arms otherwise pos, st ≠ .choose arms otherwise pos) ∧
      ∀ count body pos, st ≠ .repeated count body pos) : ¬ s.Loops base [st] := by
  rintro ⟨s', ch, h, -⟩
  cases h with
  | run => exact hst.1 _ _ rfl
  | arm => exact hst.2.1 _ _ _ rfl
  | loop => exact hst.2.2 _ _ _ rfl
  | later hflow h => cases h

/-- The arms of the next fork are the last of those before. -/
theorem Fork.arms_of_next? {base : Nat} {f g : Fork} (h : f.next? base = some g) :
    g.arms <:+ f.arms := by
  unfold Fork.next? at h
  split at h
  · simp at h
  · next cond body pos rest harms =>
      have hrest : g.arms = rest := by
        split at h
        · obtain rfl := Option.some.inj h
          rfl
        · obtain rfl := Option.some.inj h
          rfl
        · split at h
          · simp at h
          · obtain rfl := Option.some.inj h
            rfl
      rw [hrest, harms]
      exact List.suffix_cons _ _

/-- A block of a conditional is the body of an arm, or of what is behind them. -/
theorem Fork.block?_source {base base₁ : Nat} {otherwise : Option (List Stmt)} {f g : Fork}
    {s₁ : Surroundings} {body : List Stmt} (hleads : Fork.Leads base f g)
    (hblock : g.block? base otherwise = some (s₁, base₁, body)) :
    (∃ arm ∈ f.arms, arm.body = body) ∨ otherwise = some body := by
  have hsuffix : g.arms <:+ f.arms := by
    clear hblock
    induction hleads with
    | refl => exact List.suffix_refl _
    | tail _ hnext ih => exact (Fork.arms_of_next? hnext).trans ih
  unfold Fork.block? at hblock
  split at hblock
  · obtain ⟨body', hbody, heq⟩ := Option.map_eq_some_iff.1 hblock
    exact .inr (by rw [hbody, (Prod.mk.inj (Prod.mk.inj heq).2).2])
  · next cond body' pos rest harms =>
      have hmem : (⟨cond, body', pos⟩ : Branch) ∈ f.arms :=
        hsuffix.subset (by rw [harms]; exact List.mem_cons_self)
      refine .inl ⟨_, hmem, ?_⟩
      split at hblock
      · simp at hblock
      · exact (Prod.mk.inj (Prod.mk.inj (Option.some.inj hblock)).2).2
      · split at hblock
        · exact (Prod.mk.inj (Prod.mk.inj (Option.some.inj hblock)).2).2
        · simp at hblock

/-- The rounds of a loop exceed a depth when its body does. -/
theorem circular_repeated (s : Surroundings) (base : Nat) (count : Option Expr) (body : List Stmt)
    (pos : Pos) :
    (s.stmt base (.repeated count body pos)).out.circular = true ↔
      ∃ n factor ds, s.loopCount count pos = (some (n + 1, factor), ds) ∧
        (block { s with loops := s.loops + 1 } base body).out.circular = true := by
  rw [stmt]
  cases hcount : s.loopCount count pos with
  | mk r ds =>
      cases r with
      | none => simp
      | some r =>
          obtain ⟨n, factor⟩ := r
          cases n with
          | zero => simp
          | succ n =>
              cases hflow : (block { s with loops := s.loops + 1 } base body).flow
                <;> simp [repeatBody, hflow]

/-! ## where planning comes to an end -/

mutual

/-- A statement exceeds the depth of the library exactly when it leads to a circular
chain. -/
theorem circular_stmt (st : Stmt) (s : Surroundings) (base : Nat) :
    (s.stmt base st).out.circular = true ↔ s.Loops base [st] := by
  cases st with
  | run ch pos =>
      rw [loops_run, stmt]
      exact (s.circular_iff base ch).1
  | choose arms otherwise pos =>
      have hbody : ∀ {f : Fork} {s₁ : Surroundings} {base₁ : Nat} {body : List Stmt},
          Fork.Leads base { s, arms } f → f.block? base otherwise = some (s₁, base₁, body) →
          ((block s₁ base₁ body).out.circular = true ↔ s₁.Loops base₁ body) := by
        intro f s₁ base₁ body hleads hblock
        rcases Fork.block?_source hleads hblock with ⟨arm, harm, rfl⟩ | helse
        · exact circular_arms arms arm harm s₁ base₁
        · cases otherwise with
          | none => simp at helse
          | some rest =>
              obtain rfl := Option.some.inj helse
              exact circular_block rest s₁ base₁
      rw [stmt_choose, circular_branches, loops_choose]
      constructor
      · rintro (h | ⟨f, s₁, base₁, body, hleads, hblock, hcircular⟩)
        · exact absurd h (by simp)
        · exact ⟨f, s₁, base₁, body, hleads, hblock, (hbody hleads hblock).1 hcircular⟩
      · rintro ⟨f, s₁, base₁, body, hleads, hblock, hloops⟩
        exact .inr ⟨f, s₁, base₁, body, hleads, hblock, (hbody hleads hblock).2 hloops⟩
  | repeated count body pos =>
      rw [circular_repeated, loops_repeated]
      simp only [circular_block body]
  | bind name value pos => simpa [stmt] using not_loops_simple s base _ (by simp)
  | leaveLoop pos =>
      have hnot := not_loops_simple s base (.leaveLoop pos) (by simp)
      by_cases h : s.loops = 0 <;> simpa [stmt, h] using hnot
  | nextRound pos =>
      have hnot := not_loops_simple s base (.nextRound pos) (by simp)
      by_cases h : s.loops = 0 <;> simpa [stmt, h] using hnot
  | finish pos => simpa [stmt] using not_loops_simple s base _ (by simp)

/-- A block is circular when it loops. -/
theorem circular_block (stmts : List Stmt) (s : Surroundings) (base : Nat) :
    (s.block base stmts).out.circular = true ↔ s.Loops base stmts := by
  cases stmts with
  | nil => simpa [block] using loops_nil s base
  | cons st rest =>
      rw [loops_cons, ← circular_stmt st s base, ← circular_block rest, block]
      by_cases hflow : (s.stmt base st).flow = .onward <;> simp [hflow]

/-- The arms of a choice are circular when they loop. -/
theorem circular_arms (arms : List Branch) (arm : Branch) (harm : arm ∈ arms) (s : Surroundings)
    (base : Nat) :
    (s.block base arm.body).out.circular = true ↔ s.Loops base arm.body := by
  cases arms with
  | nil => simp at harm
  | cons first rest =>
      obtain ⟨cond, body, pos⟩ := first
      rcases List.mem_cons.1 harm with heq | harm
      · rw [heq]
        exact circular_block body s base
      · exact circular_arms rest arm harm s base

end

end Surroundings

open Surroundings in
/-- Planning comes to an end exactly when no chain statement that lowering comes to has
a chain nested in itself.  Such a chain is lowered without end: whatever the depth to
which its arguments are lowered, they go deeper. -/
theorem plan_ends_iff (p : Program) (registry : Registry) (options : Options) :
    (p.plan registry options ≠ .error .circularVariable ↔ p.search = [] ∨
      ∀ s ch, Comes { checker := { registry, suggest := options.suggest } } 0 p.statements s ch →
        ¬ s.Circular ch) ∧
      ∀ (s : Surroundings) (base : Nat) (ch : Chain), s.Circular ch ↔
        ∀ depth, (s.chainWith (s.subchain depth) false base ch).1.circular = true := by
  refine ⟨?_, fun s base ch => (s.circular_iff base ch).2⟩
  have hblock :=
    circular_block p.statements { checker := { registry, suggest := options.suggest } } 0
  have hloops : (∀ s ch, Comes { checker := { registry, suggest := options.suggest } } 0
      p.statements s ch →
      ¬ s.Circular ch) ↔
        ¬ Loops { checker := { registry, suggest := options.suggest } } 0 p.statements := by
    constructor
    · rintro h ⟨s, ch, hcomes, hcircular⟩
      exact h s ch hcomes hcircular
    · exact fun h s ch hcomes hcircular => h ⟨s, ch, hcomes, hcircular⟩
  rw [hloops, ← hblock, Program.plan]
  by_cases hsearch : p.search = []
  · simp [hsearch]
  · simp only [List.isEmpty_iff, hsearch, if_false, false_or]
    split <;> simp_all

/-- A registry with an operation that begins chains and one that takes another image. -/
def darkroom : Registry where
  ops := {
    specs := .ofList [("ink", { name := "ink" }),
      ("mix", { name := "mix", args := [{ name := "tex", type := .surface }] })]
    starters := ["ink"] }

/-- A variable bound to a chain that mixes the variable in. -/
def selfMixed : Program where
  search := ["darkroom"]
  statements :=
    [ .bind "a" (.chain
      { calls := [{ name := "ink" }, { name := "mix", kwargs := [⟨"tex", .ident "a" {}, {}⟩] }] })
        {},
      .run { base := some "a", out := some (.surface { kind := .output, index := 0 } {}) } {} ]

open Surroundings in
/-- The chain of the variable is nested in itself, and the program is never planned. -/
theorem selfMixed_endless :
    selfMixed.plan darkroom {} = .error .circularVariable ∧
      ∃ s ch, Comes { checker := { registry := darkroom } } 0 selfMixed.statements s ch ∧
      s.Circular ch ∧
        ∀ depth, (s.chainWith (s.subchain depth) false 0 ch).1.circular = true := by
  have hcircular : (block { checker := { registry := darkroom } } 0
      selfMixed.statements).out.circular = true := by
    decide +kernel
  have hplan : selfMixed.plan darkroom {} = .error .circularVariable := by
    rw [Program.plan, if_neg (by decide)]
    exact if_pos hcircular
  obtain ⟨hends, hdeep⟩ := plan_ends_iff selfMixed darkroom {}
  refine ⟨hplan, ?_⟩
  by_contra hnone
  have hall : ∀ s ch, Comes { checker := { registry := darkroom } } 0 selfMixed.statements s ch →
      ¬ s.Circular ch :=
    fun s ch hcomes hcirc => hnone ⟨s, ch, hcomes, hcirc, (hdeep s 0 ch).1 hcirc⟩
  exact hends.2 (.inr hall) hplan

end EffectChain
