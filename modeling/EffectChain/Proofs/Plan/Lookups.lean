import EffectChain.Proofs.Plan.Aliases
import EffectChain.Proofs.Plan.Calls

/-!
# EffectChain.Proofs.Plan.Lookups

What planning asks a registry for.

Arguments are checked against the constants, and calls are looked up one by one; apart from
that a registry matters for the marks of the operations it finds and for the names it
suggests.  The calls that are looked up are those of the chain statements that lowering comes
to, and of the chains nested in them (`Program.LooksUp`).

* `Program.plan_congr` — two registries that have the constants, the marks and the names in
  common, and answer alike to the calls of a program that are looked up, plan it alike.
-/

namespace EffectChain

open Emitted

/-- Two registries have the constants, the marks and the names that are suggested in common. -/
structure Registry.Alike (r r' : Registry) : Prop where
  enums : r'.enums = r.enums
  starter : ∀ name, r'.ops.isStarter name = r.ops.isStarter name
  passthrough : ∀ name, r'.ops.isPassthrough name = r.ops.isPassthrough name
  suggested : Surroundings.callNames r' = Surroundings.callNames r

namespace Checker

/-- Checking against another registry. -/
def against (k : Checker) (r : Registry) : Checker := { k with registry := r }

variable {k : Checker} {r : Registry}

@[simp] theorem registry_against : (k.against r).registry = r := rfl

@[simp] theorem suggesting_against (p : Problem) (pos : Pos) (candidates : List String) :
    (k.against r).suggesting p pos candidates = k.suggesting p pos candidates := rfl

/-! ## values -/

/-- The keywords of a wave do not read the registry. -/
@[simp] theorem waveKeywords_against (name : String) (o : Oscillator) (kws : List Keyword) :
    (k.against r).waveKeywords name o kws = k.waveKeywords name o kws := by
  induction kws generalizing o with
  | nil => rfl
  | cons kw kws ih => simp only [waveKeywords, ih, suggesting_against]

@[simp] theorem oscillator_against (c : Call) : (k.against r).oscillator c = k.oscillator c := by
  simp only [oscillator, waveKeywords_against]

/-- A scalar is read without the registry. -/
@[simp] theorem scalar_against (vars : Bindings) (e : Expr) (min max : Option Float)
    (what : String) :
    (k.against r).scalar vars e min max what = k.scalar vars e min max what := by
  simp only [scalar, suggesting_against, oscillator_against]

@[simp] theorem boolArg_against (vars : Bindings) (a : ArgSpec) (e : Expr) :
    (k.against r).boolArg vars a e = k.boolArg vars a e := by
  simp only [boolArg, scalar_against]

section constants

variable (h : r.enums = k.registry.enums)

include h

theorem memberArg_against (a : ArgSpec) (e : Expr) :
    (k.against r).memberArg a e = k.memberArg a e := by
  obtain ⟨names, enums, ops⟩ := r
  obtain rfl := h
  rfl

theorem numberArg_against (vars : Bindings) (a : ArgSpec) (e : Expr) :
    (k.against r).numberArg vars a e = k.numberArg vars a e := by
  simp only [numberArg, scalar_against, memberArg_against h, registry_against, h]

theorem defaultValue_against (a : ArgSpec) : (k.against r).defaultValue a = k.defaultValue a := by
  obtain ⟨names, enums, ops⟩ := r
  obtain rfl := h
  rfl

end constants

end Checker

namespace Surroundings

/-- Lowering against another registry. -/
def against (s : Surroundings) (r : Registry) : Surroundings :=
  { s with checker := s.checker.against r }

variable {s : Surroundings} {r : Registry} {sub : LowerChain}

@[simp] theorem checker_against : (s.against r).checker = s.checker.against r := rfl

@[simp] theorem vars_against : (s.against r).vars = s.vars := rfl

@[simp] theorem guards_against : (s.against r).guards = s.guards := rfl

@[simp] theorem loops_against : (s.against r).loops = s.loops := rfl

/-! ## calls -/

/-- Giving arguments by keyword does not read the registry. -/
@[simp] theorem keywords_against {k : Checker} (spec : OpSpec) (canonical : String)
    (given : Table Expr) (kws : List Keyword) :
    keywords (k.against r) spec canonical given kws = keywords k spec canonical given kws := by
  induction kws generalizing given with
  | nil => rfl
  | cons kw kws ih => simp only [keywords, ih, Checker.suggesting_against]

theorem argument_against (h : r.enums = s.checker.registry.enums) (base : Nat) (a : ArgSpec)
    (e : Expr) :
    (s.against r).argument sub base a e = s.argument sub base a e := by
  simp only [argument, checker_against, vars_against, Checker.numberArg_against h,
    Checker.boolArg_against, Checker.memberArg_against h]

/-- Taking an argument reads only the enums of the registry. -/
theorem take_against (h : r.enums = s.checker.registry.enums) (base : Nat) (given : Table Expr) :
    Arguments.take (s.against r) sub base given = Arguments.take s sub base given := by
  funext args a
  unfold Arguments.take
  simp only [argument_against h, checker_against, Checker.defaultValue_against h]

theorem call_against (h : r.enums = s.checker.registry.enums) (base : Nat) (c : Call)
    (spec : OpSpec) (source : Option Nat) :
    (s.against r).call sub base c spec source = s.call sub base c spec source := by
  simp only [call, take_against h, checker_against, keywords_against, guards_against]

/-! ## chains -/

/-- A call that the other registry answers alike is lowered alike. -/
theorem next_against (h : s.checker.registry.Alike r) (base : Nat) (p : Progress) {c : Call}
    (hc : resolve? r c = resolve? s.checker.registry c) :
    Progress.next (s.against r) sub base p c = Progress.next s sub base p c := by
  simp only [Progress.next, checker_against, Checker.registry_against, Checker.suggesting_against,
    hc, h.starter, h.passthrough, h.suggested, call_against h.enums]

/-- A chain is lowered alike by registries that resolve its calls alike. -/
theorem chainWith_against (h : s.checker.registry.Alike r) {ch : Chain}
    (hcalls : ∀ c ∈ (s.vars.expandChain ch).1, resolve? r c = resolve? s.checker.registry c)
    (isArgument : Bool) (base : Nat) :
    (s.against r).chainWith sub isArgument base ch = s.chainWith sub isArgument base ch := by
  have hfold : (s.vars.expandChain ch).1.foldl (Progress.next (s.against r) sub base)
      { out := notes (s.vars.expandChain ch).2 } = (s.vars.expandChain ch).1.foldl
        (Progress.next s sub base)
      { out := notes (s.vars.expandChain ch).2 } :=
    List.foldl_ext _ _ _ fun p c hc => next_against h base p (hcalls c hc)
  unfold chainWith
  dsimp only
  rw [vars_against, hfold]

/-- Lowering a chain looks up the calls it stands for and those of the chains nested in it. -/
def LooksUp (s : Surroundings) (ch : Chain) (c : Call) : Prop :=
  ∃ inner, Relation.ReflTransGen s.Nests ch inner ∧ c ∈ (s.vars.expandChain inner).1

/-- The other registry answers alike to all calls that a chain looks up. -/
def Answered (s : Surroundings) (r : Registry) (ch : Chain) : Prop :=
  ∀ c, s.LooksUp ch c → resolve? r c = resolve? s.checker.registry c

theorem Answered.calls {ch : Chain} (h : s.Answered r ch) :
    ∀ c ∈ (s.vars.expandChain ch).1, resolve? r c = resolve? s.checker.registry c :=
  fun c hc => h c ⟨ch, .refl, hc⟩

theorem Answered.nested {ch inner : Chain} (h : s.Answered r ch) (hnests : s.Nests ch inner) :
    s.Answered r inner :=
  fun c ⟨deep, hdeep, hc⟩ => h c ⟨deep, .head hnests hdeep, hc⟩

/-- An answered chain is lowered alike at every depth. -/
theorem subchain_against (h : s.checker.registry.Alike r) (depth : Nat) {ch : Chain}
    (hch : s.Answered r ch) (base : Nat) :
    (s.against r).subchain depth base ch = s.subchain depth base ch := by
  induction depth generalizing ch base with
  | zero => rfl
  | succ depth ih =>
      calc (s.against r).chainWith ((s.against r).subchain depth) true base ch
        _ = s.chainWith ((s.against r).subchain depth) true base ch :=
          chainWith_against h hch.calls true base
        _ = s.chainWith (s.subchain depth) true base ch :=
          chainWith_congr (fun inner hnests => ih (hch.nested hnests)) true base

/-- An answered chain is lowered alike. -/
theorem chain_against (h : s.checker.registry.Alike r) {ch : Chain} (hch : s.Answered r ch)
    (base : Nat) :
    (s.against r).chain base ch = s.chain base ch := by
  have hdeep : s.chainWith ((s.against r).subchain (depthBound s.vars ch)) false base ch =
      s.chainWith (s.subchain (depthBound s.vars ch)) false base ch :=
    chainWith_congr (fun inner hnests => subchain_against h _ (hch.nested hnests)) false base
  unfold chain
  rw [vars_against, chainWith_against h hch.calls, hdeep]

/-! ## statements -/

/-- The other registry has in common what the chain statements ask for that lowering comes
to. -/
def Serves (s : Surroundings) (r : Registry) (base : Nat) (stmts : List Stmt) : Prop :=
  ∀ s' ch, Comes s base stmts s' ch → s'.checker.registry.Alike r ∧ s'.Answered r ch

/-- The first statement is served with the block. -/
theorem Serves.first {base : Nat} {st : Stmt} {rest : List Stmt}
    (h : s.Serves r base (st :: rest)) :
    s.Serves r base [st] := by
  intro s' ch hcomes
  refine h s' ch ?_
  cases hcomes with
  | run => exact .run
  | arm hf hbody hcomes => exact .arm hf hbody hcomes
  | loop hcount hcomes => exact .loop hcount hcomes
  | later hflow hcomes => cases hcomes

theorem loopCount_against (count : Option Expr) (pos : Pos) :
    (s.against r).loopCount count pos = s.loopCount count pos := by
  simp only [loopCount, checker_against, vars_against, Checker.scalar_against]

/-- What the arms of a conditional that are left come to is lowered alike against the other
registry. -/
def Fork.Same (base : Nat) (otherwise : Option (List Stmt)) (r : Registry) (f : Fork) : Prop :=
  ∀ g s₁ base₁ body, Fork.Leads base f g → g.block? base otherwise = some (s₁, base₁, body) →
    (s₁.against r).block base₁ body = s₁.block base₁ body

theorem Fork.Same.here {base base₁ : Nat} {otherwise : Option (List Stmt)} {f : Fork}
    {body : List Stmt} {s₁ : Surroundings} (h : f.Same base otherwise r)
    (hblock : f.block? base otherwise = some (s₁, base₁, body)) :
    (s₁.against r).block base₁ body = s₁.block base₁ body :=
  h f s₁ base₁ body .refl hblock

theorem Fork.Same.next {base : Nat} {otherwise : Option (List Stmt)} {f g : Fork}
    (h : f.Same base otherwise r) (hnext : f.next? base = some g) : g.Same base otherwise r :=
  fun f' s₁ base₁ body hleads => h f' s₁ base₁ body (.head hnext hleads)

/-- Arms whose blocks are lowered alike are lowered alike. -/
theorem branches_against (base : Nat) (otherwise : Option (List Stmt)) (arms : List Branch)
    (s : Surroundings) (negated : List Dynamic) (before : Emitted)
    (h : Fork.Same base otherwise r ⟨s, negated, before, arms⟩) :
    (s.against r).branches base negated before (orElse base otherwise) arms =
      s.branches base negated before (orElse base otherwise) arms := by
  induction arms generalizing s negated before with
  | nil =>
      rw [branches, branches]
      cases otherwise with
      | none => rfl
      | some body => exact congrArg (after before negated) (h.here rfl)
  | cons arm rest ih =>
      obtain ⟨cond, body, pos⟩ := arm
      have hscalar : (s.against r).checker.scalar (s.against r).vars cond none none "condition" =
          s.checker.scalar s.vars cond none none "condition" := Checker.scalar_against ..
      cases hcond : s.checker.scalar s.vars cond none none "condition" with
      | mk v ds =>
          rw [hcond] at hscalar
          cases v with
          | none =>
              rw [branches_of_none hscalar, branches_of_none hcond]
              exact ih s negated _ (h.next (by simp only [Fork.next?, hcond]))
          | some v =>
              by_cases hv : ∃ d, v = .dynamic d
              · obtain ⟨d, rfl⟩ := hv
                have harm : Fork.block? base otherwise ⟨s, negated, before,
                    ⟨cond, body, pos⟩ :: rest⟩ =
                    some ({ s with guards := s.guards ++ negated ++ [d] },
                      base + (before ++ notes ds).steps.length,
                        body) := by simp only [Fork.block?, hcond]
                let l := block { s with guards := s.guards ++ negated ++ [d] }
                  (base + (before ++ notes ds).steps.length) body
                have hrest :=
                  ih { s with vars := l.vars } (negated ++ [d.not]) (before ++ notes ds ++ l.out)
                  (h.next (by simp only [Fork.next?, hcond, l]))
                rw [branches_of_dynamic hscalar, branches_of_dynamic hcond]
                exact (congrArg
                  (fun l : Lowered => branches { s.against r with vars := l.vars } base
                  (negated ++ [d.not]) (before ++ notes ds ++ l.out) (orElse base otherwise) rest)
                  (h.here harm)).trans hrest
              · have hstatic : ∀ d, v ≠ .dynamic d := fun d hd => hv ⟨d, hd⟩
                rw [branches_of_static hscalar hstatic, branches_of_static hcond hstatic]
                by_cases htruthy : (v.eval {}).truthy = true
                · rw [if_pos htruthy, if_pos htruthy]
                  exact congrArg (after (before ++ notes ds) negated)
                    (h.here ((Fork.block?_static otherwise hcond hstatic).trans (if_pos htruthy)))
                · rw [if_neg htruthy, if_neg htruthy]
                  exact ih s negated _
                    (h.next ((Fork.next?_static hcond hstatic).trans (if_neg htruthy)))

/-- What a loop comes to is fixed by its body. -/
theorem LoopOf.unique {n : Nat} {factor : Option Dynamic} {pos : Pos} {ds : List Diagnostic}
    {body l l' : Lowered} (hl : LoopOf n factor pos ds body l)
    (hl' : LoopOf n factor pos ds body l') : l = l' := by
  cases hflow : body.flow with
  | leaveLoop => rw [hl.leave hflow, hl'.leave hflow]
  | finish => rw [hl.finish hflow, hl'.finish hflow]
  | onward => rw [hl.again (.inl hflow), hl'.again (.inl hflow)]
  | nextRound => rw [hl.again (.inr hflow), hl'.again (.inr hflow)]

mutual

/-- A statement is lowered alike against a registry that serves its chains. -/
theorem stmt_against (st : Stmt) (s : Surroundings) (base : Nat) (h : s.Serves r base [st]) :
    (s.against r).stmt base st = s.stmt base st := by
  cases st with
  | run ch pos =>
      obtain ⟨halike, hch⟩ := h s ch .run
      rw [stmt, stmt, chain_against halike hch, vars_against]
  | choose arms otherwise pos =>
      rw [stmt_choose, stmt_choose]
      refine branches_against base otherwise arms s [] {} fun f s₁ base₁ body hleads hblock => ?_
      have hbody : s₁.Serves r base₁ body := fun s' ch hcomes => h s' ch (.arm hleads hblock hcomes)
      rcases Fork.block?_source hleads hblock with ⟨arm, harm, rfl⟩ | helse
      · exact arms_against arms arm harm s₁ base₁ hbody
      · cases otherwise with
        | none => simp at helse
        | some rest =>
            obtain rfl := Option.some.inj helse
            exact block_against rest s₁ base₁ hbody
  | repeated count body pos =>
      have hother : (s.against r).loopCount count pos = s.loopCount count pos :=
        loopCount_against count pos
      cases hcount : s.loopCount count pos with
      | mk n ds =>
          rw [hcount] at hother
          match n with
          | none => simp only [stmt, hother, hcount, vars_against]
          | some (0, factor) => simp only [stmt, hother, hcount, vars_against]
          | some (n + 1, factor) =>
              have hbody : ({ s with loops := s.loops + 1 }.against r).block base body =
                  block { s with loops := s.loops + 1 } base body :=
                block_against body _ base fun s' ch hcomes => h s' ch (.loop hcount hcomes)
              exact (hbody ▸ loopOf_stmt base body hother).unique (loopOf_stmt base body hcount)
  | _ => rfl

/-- A block that is served is lowered alike. -/
theorem block_against (stmts : List Stmt) (s : Surroundings) (base : Nat)
    (h : s.Serves r base stmts) :
    (s.against r).block base stmts = s.block base stmts := by
  cases stmts with
  | nil => rw [block, block, vars_against]
  | cons st rest =>
      rw [block, block, stmt_against st s base h.first]
      by_cases hflow : (s.stmt base st).flow = .onward
      · have hrest := block_against rest { s with vars := (s.stmt base st).vars }
          (base + (s.stmt base st).out.steps.length) fun s' ch hcomes =>
            h s' ch (.later hflow hcomes)
        rw [if_pos hflow, if_pos hflow]
        exact congrArg (fun more : Lowered => { more with out := (s.stmt base st).out ++ more.out })
          hrest
      · rw [if_neg hflow, if_neg hflow]

/-- The arms of a choice are lowered alike when their blocks are served. -/
theorem arms_against (arms : List Branch) (arm : Branch) (harm : arm ∈ arms) (s : Surroundings)
    (base : Nat) (h : s.Serves r base arm.body) :
    (s.against r).block base arm.body = s.block base arm.body := by
  cases arms with
  | nil => simp at harm
  | cons first rest =>
      obtain ⟨cond, body, pos⟩ := first
      rcases List.mem_cons.1 harm with rfl | harm
      · exact block_against body s base h
      · exact arms_against rest arm harm s base h

end

end Surroundings

/-! ## programs -/

open Surroundings

/-- Planning a program looks up a call. -/
def Program.LooksUp (p : Program) (registry : Registry) (options : Options) (c : Call) : Prop :=
  ∃ s ch, Comes { checker := { registry, suggest := options.suggest } } 0 p.statements s ch ∧
    s.LooksUp ch c

variable {r r' : Registry} {options : Options}

/-- A registry that has in common with another one what is asked for in planning a program, and
answers alike to the calls of the program that are looked up, plans it alike. -/
theorem Program.plan_congr (h : r.Alike r') {p : Program}
    (hcalls : ∀ c, p.LooksUp r options c → resolve? r' c = resolve? r c) :
    p.plan r' options = p.plan r options := by
  have hserves : Serves { checker := { registry := r, suggest := options.suggest } } r' 0
      p.statements := by
    intro s ch hcomes
    obtain ⟨base, pos, rest, hreaches⟩ := hcomes.reaches
    have hregistry : s.checker.registry = r := congrArg Checker.registry hreaches.checker
    rw [Answered, hregistry]
    exact ⟨h, fun c hc => hcalls c ⟨s, ch, hcomes, hc⟩⟩
  have hblock : block { checker := { registry := r', suggest := options.suggest } } 0 p.statements =
      block { checker := { registry := r, suggest := options.suggest } } 0 p.statements :=
    block_against p.statements _ 0 hserves
  rw [plan, plan, hblock]

/-- So it compiles a source alike whose program it answers alike to. -/
theorem Plan.compile_congr (h : r.Alike r') {source : Bytes}
    (hcalls : ∀ p, Program.parse options source = .ok p → ∀ c, p.LooksUp r options c →
      resolve? r' c = resolve? r c) :
    compile source r' options = compile source r options := by
  unfold compile
  cases hparse : Program.parse options source with
  | error e => rfl
  | ok p =>
      dsimp only
      rw [Program.plan_congr h (hcalls p hparse)]

end EffectChain
