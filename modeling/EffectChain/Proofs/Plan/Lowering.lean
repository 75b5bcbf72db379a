import EffectChain.Proofs.Plan.Settled
import Mathlib.Data.List.Forall2
import Mathlib.Tactic.Ring

/-!
# EffectChain.Proofs.Plan.Lowering

A plan holds the outline of its program: the steps of a program that is planned
without errors and warnings are the steps of the outline's chain statements, one
section for each (`block_renders`), and in every frame a step runs as often as the
tally of the outline says (`Step.Counts`).
-/

namespace EffectChain

open Emitted

/-- No errors and no warnings. -/
def Clean (ds : List Diagnostic) : Prop := ∀ d ∈ ds, d.severity = .info

theorem clean_append {ds es : List Diagnostic} : Clean (ds ++ es) ↔ Clean ds ∧ Clean es := by
  simp [Clean, or_imp, forall_and]

theorem Clean.of_prefix {ds es : List Diagnostic} (hes : Clean es) (h : ds <+: es) : Clean ds :=
  fun d hd => hes d (h.subset hd)

namespace Emitted

@[simp] theorem steps_append (a b : Emitted) : (a ++ b).steps = a.steps ++ b.steps := rfl

@[simp] theorem problems_append (a b : Emitted) : (a ++ b).problems = a.problems ++ b.problems :=
  rfl

@[simp] theorem steps_notes (ds : List Diagnostic) : (notes ds).steps = [] := rfl

@[simp] theorem problems_notes (ds : List Diagnostic) : (notes ds).problems = ds := rfl

@[simp] theorem steps_note (p : Problem) (pos : Pos) : (note p pos).steps = [] := rfl

@[simp] theorem problems_note (p : Problem) (pos : Pos) :
    (note p pos).problems = [{ problem := p, pos }] := rfl

end Emitted

/-! ## conditions and counts -/

namespace Checker

/-- Which registry a program is checked against matters to suggestions only. -/
theorem waveKeywords_value (k : Checker) (name : String) :
    ∀ (kws : List Keyword) (o : Oscillator),
      (k.waveKeywords name o kws).1 = (({} : Checker).waveKeywords name o kws).1 := by
  intro kws
  induction kws with
  | nil => intro o; rfl
  | cons kw kws ih =>
    intro o
    rw [waveKeywords, waveKeywords]
    split
    · split
      · exact ih _
      · rfl
    · rfl

/-- What an oscillator call evaluates to does not depend on the checker. -/
theorem oscillator_value (k : Checker) (c : Call) :
    (k.oscillator c).1 = (({} : Checker).oscillator c).1 := by
  rw [oscillator, oscillator]
  split
  · exact waveKeywords_value k _ _ _
  · rfl

/-- Without bounds a scalar is the one its expression has. -/
theorem scalar_value (k : Checker) (vars : Bindings) (e : Expr) (what : String) :
    (k.scalar vars e none none what).1 = vars.scalar? e := by
  unfold Bindings.scalar? scalar
  cases vars.deref e with
  | closure source pos =>
    dsimp only
    cases Dynamic.closure? source <;> rfl
  | ident name pos => by_cases h : isStateField name <;> simp [h]
  | call c =>
    by_cases h : isWaveCall c
    · have hvalue := oscillator_value k c
      simp only [h, if_true]
      rcases ho : k.oscillator c with ⟨o, ds⟩
      rcases ho' : ({} : Checker).oscillator c with ⟨o', ds'⟩
      simp only [ho, ho'] at hvalue
      subst hvalue
      cases o <;> rfl
    · simp only [h]
      rfl
  | _ => rfl

end Checker

/-- A value that is computed in every frame, as it is written: without bounds and
not negated. -/
structure Dynamic.Fresh (d : Dynamic) : Prop where
  min : d.min = none
  max : d.max = none
  negated : d.negated = false

/-- A closure is not negated, bounds or none. -/
theorem Dynamic.fresh_closure? {source : String} {d : Dynamic}
    (h : Dynamic.closure? source = some d) : (d.bounded none none).Fresh := by
  unfold Dynamic.closure? at h
  obtain ⟨f, -, rfl⟩ := Option.map_eq_some_iff.1 h
  exact ⟨rfl, rfl, rfl⟩

/-- A dynamic scalar read from a variable is not negated. -/
theorem Bindings.fresh_scalar? {vars : Bindings} {e : Expr} {d : Dynamic}
    (h : vars.scalar? e = some (.dynamic d)) : d.Fresh := by
  unfold Bindings.scalar? Checker.scalar at h
  cases hd : vars.deref e with
  | closure source pos =>
    cases hc : Dynamic.closure? source with
    | none => simp [hd, hc, Checker.refused] at h
    | some d' =>
      simp only [hd, hc, Checker.accepted, Option.some.injEq, Value.dynamic.injEq] at h
      exact h ▸ Dynamic.fresh_closure? hc
  | ident name pos =>
    by_cases hs : isStateField name
    · simp only [hd, hs, if_true, Checker.accepted, Option.some.injEq, Value.dynamic.injEq] at h
      exact h ▸ ⟨rfl, rfl, rfl⟩
    · simp [hd, hs] at h
  | call c =>
    by_cases hw : Checker.isWaveCall c
    · simp only [hd, hw, if_true] at h
      split at h
      · simp only [Option.some.injEq, Value.dynamic.injEq] at h
        exact h ▸ ⟨rfl, rfl, rfl⟩
      · simp at h
    · simp [hd, hw, Checker.refused] at h
  | _ => simp [hd, Checker.refused, Checker.accepted] at h

theorem loopTooLong_severity (x : Float) (pos : Pos) :
    ({ problem := .loopTooLong x, pos } : Diagnostic).severity = .warning := rfl

/-- A count that is not too long is the count of the outline. -/
theorem Surroundings.loopCount_value (s : Surroundings) (count : Option Expr) (pos : Pos)
    (h : Clean (s.loopCount count pos).2) : (s.loopCount count pos).1 = s.vars.loop? count := by
  cases count with
  | none => rfl
  | some e =>
    have hvalue := s.checker.scalar_value s.vars e "loop count"
    rw [Bindings.loop?, ← hvalue]
    unfold loopCount at h ⊢
    dsimp only at h ⊢
    generalize s.checker.scalar s.vars e none none "loop count" = r at h ⊢
    obtain ⟨v, ds⟩ := r
    cases v with
    | none => rfl
    | some v =>
      cases v with
      | scalar x =>
        simp only [roundedCount] at h ⊢
        split
        · rfl
        · rename_i hpos
          rw [if_neg hpos] at h
          split
          · rename_i hlong
            rw [if_pos hlong] at h
            exact absurd (h { problem := .loopTooLong x, pos } (by simp))
              (by rw [loopTooLong_severity]; decide)
          · rfl
      | _ => rfl

/-! ## the steps of a chain -/

namespace Surroundings

/-- Every step runs once, under the guards of its surroundings. -/
def Once (guards : List Dynamic) (steps : List Step) : Prop :=
  ∀ st ∈ steps, st.guards = guards ∧ st.repetition = {}

/-- Steps that run once in two parts run once together. -/
theorem Once.append {guards : List Dynamic} {as bs : List Step} (ha : Once guards as)
    (hb : Once guards bs) : Once guards (as ++ bs) := by
  intro st hst
  rcases List.mem_append.1 hst with h | h
  · exact ha st h
  · exact hb st h

variable {s : Surroundings} {sub : LowerChain}

/-- The chains of one argument add only steps that run once. -/
theorem once_argument (hsub : ∀ base ch, Once s.guards (sub base ch).1.steps) (base : Nat)
    (a : ArgSpec) (e : Expr) : Once s.guards (s.argument sub base a e).1.steps := by
  have hnone : Once s.guards [] := by simp [Once]
  unfold argument
  generalize s.vars.deref e = e
  cases a.type with
  | surface =>
    unfold surfaceArg
    dsimp only
    split
    · exact hnone
    · split <;> exact hnone
    · exact hsub _ _
    · exact hsub _ _
    · exact hnone
    · exact hnone
  | string =>
    dsimp only
    split <;> exact hnone
  | _ => exact hnone

/-- Taking one more argument adds only steps that run once. -/
theorem once_take (hsub : ∀ base ch, Once s.guards (sub base ch).1.steps) (base : Nat)
    (given : Table Expr) (r : Arguments) (a : ArgSpec) (h : Once s.guards r.out.steps) :
    Once s.guards (Arguments.take s sub base given r a).out.steps := by
  unfold Arguments.take
  dsimp only
  split
  · split <;> exact h
  · rename_i e _
    have harg := once_argument hsub (base + r.out.steps.length) a e
    split
    · rename_i out v heq
      rw [heq] at harg
      exact h.append harg
    · rename_i out heq
      rw [heq] at harg
      split <;> exact h.append harg

/-- A call adds its step and those of its arguments, each run once. -/
theorem once_call (hsub : ∀ base ch, Once s.guards (sub base ch).1.steps) (base : Nat) (c : Call)
    (spec : OpSpec) (source : Option Nat) :
    Once s.guards (s.call sub base c spec source).1.steps := by
  unfold call
  dsimp only
  refine Once.append ?_ ?_
  · -- the arguments, one after the other
    generalize spec.args = args
    have htake : ∀ (as : List ArgSpec) (given : Table Expr) (r : Arguments),
        Once s.guards r.out.steps →
        Once s.guards (as.foldl (Arguments.take s sub base given) r).out.steps := by
      intro as given
      induction as with
      | nil => exact fun r h => h
      | cons a as ih => exact fun r h => ih _ (once_take hsub base given r a h)
    exact htake _ _ _ (by simp [Once])
  · simp [Once]

/-- Every further call of a chain adds steps that run once. -/
theorem once_next (hsub : ∀ base ch, Once s.guards (sub base ch).1.steps) (base : Nat)
    (p : Progress) (c : Call) (h : Once s.guards p.out.steps) :
    Once s.guards (Progress.next s sub base p c).out.steps := by
  have hnone : Once s.guards [] := by simp [Once]
  unfold Progress.next
  dsimp only
  split
  · exact h.append hnone
  · split
    · exact h.append hnone
    · split
      · exact h.append hnone
      · exact h.append (once_call hsub _ c _ _)

/-- The steps of a chain run once, if those of its nested chains do. -/
theorem once_chainWith (hsub : ∀ base ch, Once s.guards (sub base ch).1.steps) (isArgument : Bool)
    (base : Nat) (ch : Chain) : Once s.guards (s.chainWith sub isArgument base ch).1.steps := by
  have hnone : Once s.guards [] := by simp [Once]
  have hnext : ∀ (cs : List Call) (p : Progress), Once s.guards p.out.steps →
      Once s.guards (cs.foldl (Progress.next s sub base) p).out.steps := by
    intro cs
    induction cs with
    | nil => exact fun p h => h
    | cons c cs ih => exact fun p h => ih _ (once_next hsub base p c h)
  have hset : ∀ (temp : Nat) (o : Surface) (steps : List Step), Once s.guards steps →
      Once s.guards (setOut temp o steps) := by
    intro temp o steps h st hst
    obtain ⟨st', hst', rfl⟩ := List.mem_map.1 hst
    split
    · exact h st' hst'
    · exact h st' hst'
  unfold chainWith
  dsimp only
  have hcalls := hnext (s.vars.expandChain ch).1
    { out := notes (s.vars.expandChain ch).2 } hnone
  split
  · exact hcalls
  · split
    · split
      · exact (hset _ _ _ hcalls).append hnone
      · exact hcalls.append hnone
    · split
      · split
        · exact hcalls
        · exact hcalls.append hnone
      · exact hcalls

/-- At every depth a nested chain adds steps that run once. -/
theorem once_subchain (s : Surroundings) :
    ∀ (depth base : Nat) (ch : Chain), Once s.guards (s.subchain depth base ch).1.steps := by
  intro depth
  induction depth with
  | zero => intro base ch; simp [subchain, Once]
  | succ depth ih => exact fun base ch => once_chainWith ih true base ch

/-- The steps of a chain statement run once, under the guards it stands under. -/
theorem once_chain (s : Surroundings) (base : Nat) (ch : Chain) :
    Once s.guards (s.chain base ch).steps :=
  once_chainWith (s.once_subchain _) false base ch

/-- The loops around a chain do not change its steps. -/
theorem subchain_loops (s : Surroundings) (n : Nat) :
    ∀ depth, subchain { s with loops := n } depth = s.subchain depth := by
  intro depth
  induction depth with
  | zero => rfl
  | succ depth ih =>
    rw [subchain, subchain, ih]
    rfl

/-- A chain does not depend on the loops around it. -/
theorem chain_loops (s : Surroundings) (n base : Nat) (ch : Chain) :
    chain { s with loops := n } base ch = s.chain base ch := by
  rw [chain, chain, subchain_loops]
  rfl

end Surroundings

/-! ## how often a step runs -/

/-- All guards hold in a frame. -/
def allHold (env : Env) (guards : List Dynamic) : Bool := guards.all fun g => (g.eval env).truthy

theorem allHold_concat (env : Env) (gs : List Dynamic) (g : Dynamic) :
    allHold env (gs ++ [g]) = (allHold env gs && (g.eval env).truthy) := by
  simp [allHold]

/-- How often a step runs in a frame: not at all when a guard does not hold, else as
its repetition says. -/
def Step.timesIn (st : Step) (env : Env) : Int :=
  if allHold env st.guards then st.repetition.inFrame env else 0

/-- The negation of a value holds when the value does not. -/
theorem Dynamic.Fresh.truthy_not {d : Dynamic} (h : d.Fresh) {env : Env}
    (hrun : (d.not.run? env).isSome) : (d.not.eval env).truthy = !(d.eval env).truthy := by
  obtain ⟨signal, lo, hi, negated⟩ := d
  obtain ⟨rfl, rfl, rfl⟩ : lo = none ∧ hi = none ∧ negated = false := ⟨h.min, h.max, h.negated⟩
  unfold Dynamic.eval Dynamic.run? at *
  cases hraw : Dynamic.raw? ⟨signal, none, none, false⟩ env with
  | none =>
    have hnot : Dynamic.raw? (Dynamic.not ⟨signal, none, none, false⟩) env = none := hraw
    simp [hnot] at hrun
  | some out =>
    have hnot : Dynamic.raw? (Dynamic.not ⟨signal, none, none, false⟩) env = some out := hraw
    rw [hnot]
    cases out <;> simp [Dynamic.not, Dynamic.bound, Datum.truthy, Datum.number?]

namespace Repeat

/-- Below the cap the rounds of nested loops multiply. -/
theorem times_of_uncapped {a b : Int} (ha : 0 < a) (hb : 0 < b) (h : (times a b).2 = false) :
    (times a b).1 = a * b := by
  have hpos : ¬((decide (a ≤ 0) || decide (b ≤ 0)) = true) := by simp; omega
  unfold times at *
  rw [if_neg hpos] at h ⊢
  split
  · simp_all
  · rfl

/-- The rounds of nested loops are the product, cut at the cap. -/
theorem times_eq_min {a b : Int} (ha : 0 < a) :
    (times a b).1 = min (a * b.toNat) maxRepeat := by
  unfold times
  by_cases hb : b ≤ 0
  · have hzero : b.toNat = 0 := by omega
    simp [hb, hzero]
  · have hpos : 0 < b := by omega
    have hcast : (b.toNat : Int) = b := by omega
    have hneg : ¬((decide (a ≤ 0) || decide (b ≤ 0)) = true) := by simp; omega
    rw [if_neg hneg, hcast]
    split
    · rename_i hlt
      have hlong : (maxRepeat : Int) < a * b := (Int.ediv_lt_iff_lt_mul hpos).1 hlt
      simp; omega
    · rename_i hle
      have hshort : a * b ≤ (maxRepeat : Int) := (Int.le_ediv_iff_mul_le hpos).1 (by omega)
      simp; omega

/-- A count with a factor, up to the limit. -/
theorem inFrame_eq {r : Repeat} (h : 0 < r.count) (env : Env) :
    r.inFrame env = min (Part.roundsIn env r.count.toNat r.factor : Int) maxRepeat := by
  have hne : ¬r.count = 0 := by omega
  have hcast : (r.count.toNat : Int) = r.count := by omega
  unfold inFrame
  simp only [hne, if_false]
  cases r.factor with
  | none => simp [Part.roundsIn, hcast]
  | some d =>
    simp only [times_eq_min h, Part.roundsIn, Dynamic.countIn]
    push_cast
    rw [hcast]
    simp

end Repeat

/-- In frames in which all guards outside hold, a step runs `n` times before the
limit. -/
structure Step.Counts (env : Env) (guards : List Dynamic) (n : Nat) (st : Step) : Prop where
  positive : 0 < st.repetition.count
  outer : guards <+: st.guards
  rounds : (∀ g ∈ st.guards, (g.run? env).isSome) → allHold env guards = true →
    (if allHold env st.guards then
      Part.roundsIn env st.repetition.count.toNat st.repetition.factor else 0) = n

namespace Step.Counts

variable {env : Env} {guards : List Dynamic} {st : Step} {n : Nat}

/-- Without guards outside, a step runs as often as it counts, up to the limit. -/
theorem timesIn_eq (h : Step.Counts env [] n st) (hrun : ∀ g ∈ st.guards, (g.run? env).isSome) :
    st.timesIn env = min (n : Int) maxRepeat := by
  have hn := h.rounds hrun rfl
  unfold Step.timesIn
  split
  · rename_i hhold
    rw [if_pos hhold] at hn
    rw [Repeat.inFrame_eq h.positive, hn]
  · rename_i hhold
    rw [if_neg hhold] at hn
    subst hn
    simp

/-- A guard that does not hold stops the steps under it. -/
theorem under {g : Dynamic} {m : Nat} (h : Step.Counts env (guards ++ [g]) n st)
    (hm : (g.run? env).isSome → m = if (g.eval env).truthy then n else 0) :
    Step.Counts env guards m st := by
  refine ⟨h.positive, (List.prefix_append guards [g]).trans h.outer, ?_⟩
  intro hrun hhold
  obtain ⟨more, hmore⟩ := h.outer
  have hg : (g.run? env).isSome := hrun g (by rw [← hmore]; simp)
  rw [hm hg]
  by_cases htest : (g.eval env).truthy
  · rw [if_pos htest]
    apply h.rounds hrun
    rw [allHold_concat, hhold, htest]
    rfl
  · have hfail : allHold env st.guards = false := by
      rw [← hmore]
      simp [allHold, htest]
    simp [htest, hfail]

/-- Repeating steps multiplies the rounds of each. -/
theorem repeated {count : Nat} {factor : Option Dynamic} (hcount : 0 < count)
    (h : Step.Counts env guards n st)
    (hfits : (Surroundings.repeated count factor st).2 = (false, false)) :
    Step.Counts env guards (Part.roundsIn env count factor * n)
      (Surroundings.repeated count factor st).1 := by
  obtain ⟨hpos, houter, hrounds⟩ := h
  have hcapped : (Repeat.times st.repetition.count count).2 = false := by
    unfold Surroundings.repeated at hfits
    dsimp only at hfits
    split at hfits <;> simp_all
  have htimes := Repeat.times_of_uncapped hpos (by omega) hcapped
  have hprod : (st.repetition.count * count).toNat = st.repetition.count.toNat * count := by
    rw [Int.toNat_mul (by omega) (by omega)]
    simp
  unfold Surroundings.repeated at hfits ⊢
  dsimp only at hfits ⊢
  rw [htimes]
  have hpositive : 0 < st.repetition.count * (count : Int) := Int.mul_pos hpos (by omega)
  split
  · rename_i d hown
    refine ⟨hpositive, houter, fun hrun hhold => ?_⟩
    have hn := hrounds hrun hhold
    rw [hown] at hn
    rw [← hn]
    simp only [Part.roundsIn, hprod]
    split
    · ring
    · simp
  · simp_all
  · rename_i f hother
    refine ⟨hpositive, houter, fun hrun hhold => ?_⟩
    have hn := hrounds hrun hhold
    rw [← hn]
    simp only [hprod]
    split
    · cases st.repetition.factor <;> simp [Part.roundsIn] <;> ring
    · simp

end Step.Counts

/-! ## sections -/

namespace Part

/-- The sections of consecutive parts stand one behind the other. -/
theorem sectionsOf_append (k : Checker) (guards : List Dynamic) :
    ∀ (ps qs : List Part) (base : Nat),
      sectionsOf k guards base (ps ++ qs) =
        sectionsOf k guards base ps ++
          sectionsOf k guards (base + (sectionsOf k guards base ps).flatten.length) qs := by
  intro ps qs
  induction ps with
  | nil => intro base; simp [sectionsOf]
  | cons p ps ih =>
    intro base
    simp [sectionsOf, ih, Nat.add_assoc]

@[simp] theorem sectionsOf_singleton (k : Checker) (guards : List Dynamic) (base : Nat) (p : Part) :
    sectionsOf k guards base [p] = p.sections k guards base := by
  simp [sectionsOf]

/-- Chains that do not run add no steps. -/
@[simp] theorem flatten_idle (chains : List Chain) :
    (chains.map fun _ => ([] : List Step)).flatten = [] := by
  induction chains with
  | nil => rfl
  | cons ch chains ih => simp

end Part

/-- The steps of a chain statement and how often it runs. -/
def Tallied (env : Env) (guards : List Dynamic) (own : List Step) (n : Nat) : Prop :=
  ∀ st ∈ own, st.Counts env guards n

/-- Chains that do not run are counted zero times. -/
theorem tallied_idle (env : Env) (guards : List Dynamic) (chains : List Chain) :
    List.Forall₂ (Tallied env guards) (chains.map fun _ => []) (idleTally chains) := by
  unfold idleTally
  rw [List.forall₂_map_left_iff, List.forall₂_map_right_iff]
  exact List.forall₂_same.2 fun ch _ => by simp [Tallied]

/-- Sections under one guard more, in a frame where it holds or not. -/
theorem tallied_under {env : Env} {guards : List Dynamic} {g : Dynamic} {secs : List (List Step)}
    {ns ms : List Nat} {f : Nat → Nat} (h : List.Forall₂ (Tallied env (guards ++ [g])) secs ns)
    (hms : ms = ns.map f)
    (hf : ∀ n, (g.run? env).isSome → f n = if (g.eval env).truthy then n else 0) :
    List.Forall₂ (Tallied env guards) secs ms := by
  rw [hms, List.forall₂_map_right_iff]
  exact h.imp fun own n hown st hst => (hown st hst).under (hf n)

/-- What lowering comes to after the steps `before`: the sections of an outline, with
its tally in every frame. -/
structure Lowered.Renders (k : Checker) (guards : List Dynamic) (start : Nat) (before : List Step)
    (r : Lowered) (u : Survey) : Prop where
  vars : r.vars = u.vars
  flow : r.flow = u.flow
  steps : r.out.steps = before ++ (Part.sectionsOf k guards start u.parts).flatten
  tallied : ∀ env, List.Forall₂ (Tallied env guards) (Part.sectionsOf k guards start u.parts)
    (Part.tallyOf env u.parts)

open Lowered (Renders)

namespace Lowered.Renders

variable {k : Checker} {guards : List Dynamic} {start : Nat} {before : List Step} {r : Lowered}
  {u : Survey}

/-- Idle chain statements have no steps. -/
theorem between (h : Renders k guards start before r u) (first after : List Chain) :
    Renders k guards start before r (u.between first after) := by
  have hsections : Part.sectionsOf k guards start (u.between first after).parts =
      (first.map fun _ => []) ++ Part.sectionsOf k guards start u.parts ++
        (after.map fun _ => []) := by
    simp [Survey.between, Part.sectionsOf, Part.sectionsOf_append, Part.sections]
  refine ⟨h.vars, h.flow, ?_, fun env => ?_⟩
  · rw [hsections, h.steps]
    simp
  · rw [hsections, Survey.tallyOf_between]
    exact List.rel_append (List.rel_append (tallied_idle env guards first) (h.tallied env))
      (tallied_idle env guards after)

/-- What follows an outline that goes on. -/
theorem append {more : Lowered} {v : Survey} (h : Renders k guards start [] r u)
    (hmore : Renders k guards (start + r.out.steps.length) [] more v) (plain settled : Bool) :
    Renders k guards start [] { more with out := r.out ++ more.out }
      { v with parts := u.parts ++ v.parts, plain, settled } := by
  have hlen : r.out.steps = (Part.sectionsOf k guards start u.parts).flatten := h.steps
  obtain ⟨hvars, hflow, hsteps, htallied⟩ := hmore
  rw [hlen] at hsteps htallied
  refine ⟨hvars, hflow, ?_, fun env => ?_⟩
  · rw [Part.sectionsOf_append, steps_append, hsteps, hlen]
    simp
  · rw [Part.sectionsOf_append, Part.tallyOf_append]
    exact List.rel_append (h.tallied env) (htallied env)

/-- Idle chain statements after an outline. -/
theorem concat_idle (h : Renders k guards start before r u) (chains : List Chain)
    (ds : List Diagnostic) :
    Renders k guards start before { r with out := r.out ++ notes ds }
      { u with parts := u.parts ++ [.idle chains] } := by
  refine ⟨h.vars, h.flow, ?_, fun env => ?_⟩
  · simp [Part.sectionsOf_append, Part.sections, h.steps]
  · rw [Part.sectionsOf_append, Part.tallyOf_append, Part.sectionsOf_singleton,
      Part.tallyOf_singleton]
    exact List.rel_append (h.tallied env) (tallied_idle env guards chains)

/-- A statement that is skipped. -/
theorem idle (k : Checker) (guards : List Dynamic) (start : Nat) (out : Emitted) (vars : Bindings)
    (loose : List String) (chains : List Chain) (settled : Bool) :
    Renders k guards start out.steps { out, vars }
      { vars, loose, parts := [.idle chains], settled } := by
  refine ⟨rfl, rfl, ?_, fun env => ?_⟩
  · simp [Part.sections]
  · rw [Part.sectionsOf_singleton, Part.tallyOf_singleton]
    exact tallied_idle env guards chains

theorem reading (h : Renders k guards start before r u) (ok : Bool) :
    Renders k guards start before r (u.reading ok) :=
  ⟨h.vars, h.flow, h.steps, h.tallied⟩

end Lowered.Renders

/-- A chain statement is a section of its own. -/
theorem Surroundings.chain_renders (s : Surroundings) (base : Nat) (ch : Chain)
    (loose : List String) :
    Renders s.checker s.guards base [] { out := s.chain base ch, vars := s.vars }
      { vars := s.vars, loose, parts := [.run ch s.vars] } := by
  have hloops := chain_loops { checker := s.checker, vars := s.vars, guards := s.guards }
    s.loops base ch
  have honce := s.once_chain base ch
  refine ⟨rfl, rfl, ?_, fun env => ?_⟩
  · simp only [Part.sectionsOf_singleton, Part.sections, ← hloops]
    simp
  · simp only [Part.sectionsOf_singleton, Part.sections, ← hloops, Part.tallyOf_singleton,
      Part.tally]
    refine .cons (fun st hst => ?_) .nil
    obtain ⟨hguards, hrepeat⟩ := honce st hst
    refine ⟨by simp [hrepeat], by simp [hguards], fun _ hhold => ?_⟩
    rw [hguards, hhold, hrepeat]
    rfl

theorem nestedDynamicLoops_severity (pos : Pos) :
    ({ problem := .nestedDynamicLoops, pos } : Diagnostic).severity = .error := rfl

theorem loopsTooLong_severity (pos : Pos) :
    ({ problem := .loopsTooLong, pos } : Diagnostic).severity = .warning := rfl

/-- A loop without errors and warnings repeats every step in full. -/
theorem Surroundings.repeatBody_clean {count : Nat} {factor : Option Dynamic} {pos : Pos}
    {body : Emitted} (h : Clean (repeatBody count factor pos body).problems) :
    Clean body.problems ∧ ∀ st ∈ body.steps, (repeated count factor st).2 = (false, false) := by
  unfold repeatBody at h
  simp only [problems_append, problems_notes, clean_append] at h
  obtain ⟨⟨hbody, hnested⟩, hlong⟩ := h
  refine ⟨hbody, fun st hst => ?_⟩
  have hclash : (repeated count factor st).2.2 = false := by
    by_contra hne
    have hmem : repeated count factor st ∈ (body.steps.map (repeated count factor)).filter
        (·.2.2) :=
      List.mem_filter.2 ⟨List.mem_map_of_mem hst, by simpa using hne⟩
    exact absurd (hnested _ (List.mem_map_of_mem hmem))
      (by rw [nestedDynamicLoops_severity]; decide)
  have hcapped : (repeated count factor st).2.1 = false := by
    by_contra hne
    have hany : (body.steps.map (repeated count factor)).any (·.2.1) = true :=
      List.any_eq_true.2 ⟨_, List.mem_map_of_mem hst, by simpa using hne⟩
    rw [if_pos hany] at hlong
    exact absurd (hlong _ (List.mem_singleton.2 rfl)) (by rw [loopsTooLong_severity]; decide)
  exact Prod.ext hcapped hclash

/-- A loop repeats the sections of its body. -/
theorem Surroundings.repeatBody_renders {k : Checker} {guards : List Dynamic} {base count : Nat}
    {factor : Option Dynamic} {pos : Pos} {body : Lowered} {u : Survey} {ds : List Diagnostic}
    {loose : List String} (hcount : 0 < count) (h : Renders k guards base [] body u)
    (hclean : Clean (repeatBody count factor pos body.out).problems) :
    Renders k guards base []
      { out := notes ds ++ repeatBody count factor pos body.out, vars := body.vars }
      { u with parts := [.repeated count factor u.parts], flow := .onward, loose } := by
  obtain ⟨-, hfits⟩ := repeatBody_clean hclean
  have hsteps : body.out.steps = (Part.sectionsOf k guards base u.parts).flatten := h.steps
  have hmap : (repeatBody count factor pos body.out).steps =
      body.out.steps.map fun st => (repeated count factor st).1 := by
    simp [repeatBody]
  refine ⟨h.vars, rfl, ?_, fun env => ?_⟩
  · simp [Part.sections, hmap, hsteps, List.map_flatten]
  · simp only [Part.sectionsOf_singleton, Part.sections, Part.tallyOf_singleton, Part.tally]
    rw [List.forall₂_map_left_iff, List.forall₂_map_right_iff]
    have hboth := (List.forall₂_and_left (p := fun own : List Step =>
      ∀ st ∈ own, (repeated count factor st).2 = (false, false)) _ _).2
      ⟨fun own hown st hst => hfits st (by rw [hsteps]; exact List.mem_flatten.2 ⟨own, hown, hst⟩),
        h.tallied env⟩
    refine hboth.imp fun own n hown st' hst' => ?_
    obtain ⟨st, hst, rfl⟩ := List.mem_map.1 hst'
    exact (hown.2 st hst).repeated hcount (hown.1 st hst)

/-! ## statements -/

namespace Surroundings

/-- The problems of arms before others stay. -/
theorem branches_problems (otherwise : Surroundings → List Dynamic → Emitted → Lowered)
    (ho : ∀ s negated before,
      before.problems <+: (otherwise s negated before).out.problems) :
    ∀ (arms : List Branch) (s : Surroundings) (base : Nat) (negated : List Dynamic)
      (before : Emitted),
      before.problems <+: (s.branches base negated before otherwise arms).out.problems := by
  intro arms
  induction arms with
  | nil => exact fun s base negated before => ho s negated before
  | cons arm rest ih =>
    intro s base negated before
    obtain ⟨cond, body, pos⟩ := arm
    have hmore : ∀ (e : Emitted), before.problems <+: (before ++ e).problems :=
      fun e => List.prefix_append _ _
    rw [branches]
    split
    · exact (hmore _).trans (ih _ _ _ _)
    · refine List.IsPrefix.trans ?_ (ih _ _ _ _)
      exact (hmore (notes _)).trans (List.prefix_append _ _)
    · dsimp only
      split
      · exact (hmore _).trans (List.prefix_append _ _)
      · exact (hmore _).trans (ih _ _ _ _)

theorem flowOutsideLoop_severity (word : String) (pos : Pos) :
    ({ problem := .flowOutsideLoop word, pos } : Diagnostic).severity = .error := rfl

/-- A jump that gets no error leaves the block. -/
theorem jump_renders {s : Surroundings} {base : Nat} {word : String} {pos : Pos} {flow : Flow}
    {loose : List String} {r : Lowered}
    (hr : r = if s.loops = 0 then { out := note (.flowOutsideLoop word) pos, vars := s.vars }
      else { vars := s.vars, flow })
    (hclean : Clean r.out.problems) :
    Renders s.checker s.guards base [] r { vars := s.vars, loose, flow } := by
  subst hr
  by_cases hloops : s.loops = 0
  · rw [if_pos hloops] at hclean
    exact absurd (hclean _ (List.mem_singleton.2 rfl)) (by rw [flowOutsideLoop_severity]; decide)
  · rw [if_neg hloops]
    exact ⟨rfl, rfl, rfl, fun _ => .nil⟩

/-- An arm that is taken when no arm before it was. -/
theorem after_renders {k : Checker} {guards : List Dynamic} {start : Nat} {r : Lowered} {u : Survey}
    (negated : List Dynamic) (before : Emitted) (h : Renders k guards start [] r u)
    (body : List Stmt) (loose : List String) :
    Renders k guards start before.steps (after before negated r)
      (u.underHold (!negated.isEmpty) body loose) := by
  obtain ⟨hvars, hflow, hsteps, htallied⟩ := h
  cases hempty : negated.isEmpty with
  | true =>
    refine ⟨hvars, ?_, ?_, htallied⟩
    · simpa [after, hempty, Survey.underHold] using hflow
    · simpa [after, Survey.underHold] using hsteps
  | false =>
    refine ⟨hvars, ?_, ?_, htallied⟩
    · simp [after, hempty, Survey.underHold, Survey.perhaps]
    · simpa [after, Survey.underHold, Survey.perhaps] using hsteps

variable {s : Surroundings} {base : Nat} {negated : List Dynamic} {before : Emitted}
  {otherwise : Surroundings → List Dynamic → Emitted → Lowered} {cond : Expr} {body : List Stmt}
  {pos : Pos} {rest : List Branch} {ds : List Diagnostic}

theorem branches_of_none (h : s.checker.scalar s.vars cond none none "condition" = (none, ds)) :
    s.branches base negated before otherwise (⟨cond, body, pos⟩ :: rest) =
      s.branches base negated (before ++ notes ds) otherwise rest := by
  rw [branches, h]

/-- A dynamic condition guards its arm and negates itself for the ones behind it. -/
theorem branches_of_dynamic {d : Dynamic}
    (h : s.checker.scalar s.vars cond none none "condition" = (some (.dynamic d), ds)) :
    s.branches base negated before otherwise (⟨cond, body, pos⟩ :: rest) =
      let r := block { s with guards := s.guards ++ negated ++ [d] }
        (base + (before ++ notes ds).steps.length) body
      branches { s with vars := r.vars } base (negated ++ [d.not]) (before ++ notes ds ++ r.out)
        otherwise rest := by
  rw [branches, h]

/-- A static condition decides at once between its arm and the ones behind it. -/
theorem branches_of_static {v : Value}
    (h : s.checker.scalar s.vars cond none none "condition" = (some v, ds))
    (hv : ∀ d, v ≠ .dynamic d) :
    s.branches base negated before otherwise (⟨cond, body, pos⟩ :: rest) =
      if (v.eval {}).truthy then
        after (before ++ notes ds) negated (block { s with guards := s.guards ++ negated }
          (base + (before ++ notes ds).steps.length) body)
      else s.branches base negated (before ++ notes ds) otherwise rest := by
  rw [branches, h]
  cases v with
  | dynamic d => exact absurd rfl (hv d)
  | _ => rfl

/-- Arms the frame decides on: the sections of the one that is tried, then those of
the others. -/
theorem choose_renders {k : Checker} {guards : List Dynamic} {start : Nat} {before : List Step}
    {d : Dynamic} {yes : Lowered} {no : Lowered} {u v : Survey} (hd : d.Fresh)
    (hyes : Renders k (guards ++ [d]) start [] yes u)
    (hno : Renders k (guards ++ [d.not]) (start + yes.out.steps.length) (before ++ yes.out.steps)
      no v) (plain settled : Bool) :
    Renders k guards start before no
      { v with parts := [.choose d u.parts v.parts], plain, settled } := by
  have hlen : yes.out.steps = (Part.sectionsOf k (guards ++ [d]) start u.parts).flatten :=
    hyes.steps
  obtain ⟨hvars, hflow, hsteps, htallied⟩ := hno
  rw [hlen] at hsteps htallied
  refine ⟨hvars, hflow, ?_, fun env => ?_⟩
  · simp [Part.sections, hsteps]
  · simp only [Part.sectionsOf_singleton, Part.sections, Part.tallyOf_singleton, Part.tally]
    have htaken := hyes.tallied env
    have hothers := htallied env
    by_cases htest : (d.eval env).truthy
    · rw [if_pos htest]
      refine List.rel_append ?_ ?_
      · exact tallied_under htaken (List.map_id _).symm fun n _ => by simp [htest]
      · exact tallied_under hothers (Part.map_zero_tallyOf env v.parts).symm
          fun n hrun => by simp [hd.truthy_not hrun, htest]
    · rw [if_neg htest]
      refine List.rel_append ?_ ?_
      · exact tallied_under htaken (Part.map_zero_tallyOf env u.parts).symm
          fun n _ => by simp [htest]
      · exact tallied_under hothers (List.map_id _).symm
          fun n hrun => by simp [hd.truthy_not hrun, htest]

/-- What a loop that runs comes to: its body once when it is left in the first round,
else its body repeated. -/
structure LoopOf (n : Nat) (factor : Option Dynamic) (pos : Pos) (ds : List Diagnostic)
    (r l : Lowered) : Prop where
  leave : r.flow = .leaveLoop → l = { out := notes ds ++ r.out, vars := r.vars }
  finish : r.flow = .finish → l = { out := notes ds ++ r.out, vars := r.vars, flow := .finish }
  again : r.flow = .onward ∨ r.flow = .nextRound →
    l = { out := notes ds ++ repeatBody n factor pos r.out, vars := r.vars }

/-- A loop that is counted repeats what its body lowers to. -/
theorem loopOf_stmt {count : Option Expr} {n : Nat} {factor : Option Dynamic} (base : Nat)
    (body : List Stmt) (h : s.loopCount count pos = (some (n + 1, factor), ds)) :
    LoopOf (n + 1) factor pos ds (block { s with loops := s.loops + 1 } base body)
      (s.stmt base (.repeated count body pos)) := by
  constructor
  · intro hflow
    simp only [stmt, h, hflow]
  · intro hflow
    simp only [stmt, h, hflow]
  · rintro (hflow | hflow)
    · simp only [stmt, h, hflow]
    · simp only [stmt, h, hflow]

/-- A clean loop has a clean count and a clean body. -/
theorem LoopOf.clean {n : Nat} {factor : Option Dynamic} {r l : Lowered}
    (hl : LoopOf n factor pos ds r l) (h : Clean l.out.problems) :
    Clean ds ∧ Clean r.out.problems := by
  have hagain : r.flow = .onward ∨ r.flow = .nextRound → Clean ds ∧ Clean r.out.problems := by
    intro hflow
    rw [hl.again hflow, problems_append, clean_append] at h
    exact ⟨h.1, (repeatBody_clean h.2).1⟩
  cases hflow : r.flow with
  | onward => exact hagain (.inl hflow)
  | nextRound => exact hagain (.inr hflow)
  | leaveLoop =>
    rw [hl.leave hflow, problems_append, clean_append] at h
    exact h
  | finish =>
    rw [hl.finish hflow, problems_append, clean_append] at h
    exact h

/-- A loop renders its body as often as it counts. -/
theorem LoopOf.renders {k : Checker} {guards : List Dynamic} {n : Nat} {factor : Option Dynamic}
    {r l : Lowered} {u : Survey} {loose : List String} (hn : 0 < n)
    (hl : LoopOf n factor pos ds r l) (h : Clean l.out.problems)
    (hr : Renders k guards base [] r u) (hjump : factor.isSome → u.flow = .onward) :
    Renders k guards base [] l (u.ofLoop n factor body loose) := by
  have hagain : r.flow = .onward ∨ r.flow = .nextRound → ∀ loose,
      Renders k guards base [] l
        { u with parts := [.repeated n factor u.parts], flow := .onward, loose } := by
    intro hflow loose
    have heq := hl.again hflow
    rw [heq, problems_append, clean_append] at h
    rw [heq]
    exact repeatBody_renders hn hr h.2
  cases factor with
  | some d =>
    obtain ⟨hvars, hflow, hsteps, htallied⟩ :=
      hagain (.inl (hr.flow.trans (hjump rfl))) (loose ++ Stmt.boundOf body)
    exact ⟨hvars, hflow, hsteps, htallied⟩
  | none =>
    cases hu : u.flow with
    | onward =>
      simp only [Survey.ofLoop, hu]
      exact hagain (.inl (hr.flow.trans hu)) u.loose
    | nextRound =>
      simp only [Survey.ofLoop, hu]
      exact hagain (.inr (hr.flow.trans hu)) u.loose
    | leaveLoop =>
      simp only [Survey.ofLoop, hu]
      rw [hl.leave (hr.flow.trans hu)]
      exact ⟨hr.vars, rfl, by simpa using hr.steps, hr.tallied⟩
    | finish =>
      simp only [Survey.ofLoop, hu]
      rw [hl.finish (hr.flow.trans hu)]
      exact ⟨hr.vars, hu.symm, by simpa using hr.steps, hr.tallied⟩

mutual

/-- A statement without errors and warnings renders its survey. -/
theorem stmt_renders (s : Surroundings) (base : Nat) (loose : List String) (st : Stmt)
    (hclean : Clean (s.stmt base st).out.problems)
    (hplain : (st.survey s.vars loose).plain = true) :
    Renders s.checker s.guards base [] (s.stmt base st) (st.survey s.vars loose) := by
  cases st with
  | bind name value pos =>
    rw [stmt, Stmt.survey]
    exact ⟨rfl, rfl, rfl, fun _ => .nil⟩
  | run ch pos =>
    rw [stmt, Stmt.survey]
    exact s.chain_renders base ch loose
  | choose arms otherwise pos =>
    cases otherwise with
    | none =>
      rw [Stmt.survey] at hplain ⊢
      rw [stmt] at hclean ⊢
      have harms := branches_renders s base [] {} _ loose _ [] arms hclean hplain
        (fun _ _ _ => List.prefix_rfl)
        (fun vars negated before loose _ _ => ⟨rfl, rfl, (List.append_nil _).symm, fun _ => .nil⟩)
      rwa [List.append_nil] at harms
    | some body =>
      rw [Stmt.survey] at hplain ⊢
      rw [stmt] at hclean ⊢
      have harms := branches_renders s base [] {} _ loose _ (Stmt.chainsOf body) arms hclean hplain
        (fun _ _ _ => List.prefix_append _ _)
        (fun vars negated before loose hclean hplain => by
          have hbody := block_renders
            { s with vars, guards := s.guards ++ negated } (base + before.steps.length) loose body
            (clean_append.1 hclean).2 (Survey.plain_of_underHold hplain)
          exact after_renders negated before hbody body loose)
      rwa [List.append_nil] at harms
  | repeated count body pos =>
    have hvalue := s.loopCount_value count pos
    rw [Stmt.survey] at hplain ⊢
    rcases hcount : s.loopCount count pos with ⟨r, ds⟩
    rw [hcount] at hvalue
    cases r with
    | none =>
      rw [stmt, hcount] at hclean ⊢
      rw [← hvalue hclean]
      exact Renders.idle _ _ _ (notes ds) _ _ _ _
    | some r =>
      obtain ⟨n, factor⟩ := r
      cases n with
      | zero =>
        rw [stmt, hcount] at hclean ⊢
        rw [← hvalue (clean_append.1 hclean).1]
        exact Renders.idle _ _ _ (notes ds ++ note .loopNeverRuns pos) _ _ _ _
      | succ n =>
        have hloop := loopOf_stmt base body hcount
        obtain ⟨hds, hbody⟩ := hloop.clean hclean
        rw [← hvalue hds] at hplain ⊢
        obtain ⟨hp, hjumps⟩ := Survey.plain_ofLoop hplain
        have hrenders := block_renders { s with loops := s.loops + 1 } base
          (loose ++ Stmt.boundOf body) body hbody hp
        exact (hloop.renders (Nat.succ_pos n) hclean hrenders
          fun hsome => Stmt.flow_surveyBlock _ _ body (hjumps hsome)).reading _
  | leaveLoop pos => exact jump_renders (by rw [stmt]) hclean
  | nextRound pos => exact jump_renders (by rw [stmt]) hclean
  | finish pos => exact ⟨rfl, rfl, rfl, fun _ => .nil⟩

/-- A clean block renders what the survey of it says. -/
theorem block_renders (s : Surroundings) (base : Nat) (loose : List String) (body : List Stmt)
    (hclean : Clean (s.block base body).out.problems)
    (hplain : (Stmt.surveyBlock s.vars loose body).plain = true) :
    Renders s.checker s.guards base [] (s.block base body)
      (Stmt.surveyBlock s.vars loose body) := by
  cases body with
  | nil =>
    rw [block, Stmt.surveyBlock]
    exact ⟨rfl, rfl, rfl, fun _ => .nil⟩
  | cons st rest =>
    rw [block] at hclean ⊢
    rw [Stmt.surveyBlock] at hplain ⊢
    have hfirst : Clean (s.stmt base st).out.problems := by
      dsimp only at hclean
      split at hclean
      · exact (clean_append.1 hclean).1
      · exact (clean_append.1 hclean).1
    have hp : (st.survey s.vars loose).plain = true := by
      dsimp only at hplain
      split at hplain
      · exact (Bool.and_eq_true_iff.1 hplain).1
      · exact hplain
    have hst := stmt_renders s base loose st hfirst hp
    by_cases hflow : (st.survey s.vars loose).flow = .onward
    · have honward : (s.stmt base st).flow = .onward := hst.flow.trans hflow
      simp only [honward, if_true] at hclean ⊢
      simp only [hflow, if_true, Bool.and_eq_true, ← hst.vars] at hplain ⊢
      exact hst.append (block_renders { s with vars := (s.stmt base st).vars } _ _ rest
        (clean_append.1 hclean).2 hplain.2) _ _
    · have hleft : (s.stmt base st).flow ≠ .onward := by rw [hst.flow]; exact hflow
      simp only [hleft, if_false]
      simp only [hflow, if_false]
      exact hst.concat_idle _ _

/-- The arms of a clean choice render what the survey of them says. -/
theorem branches_renders (s : Surroundings) (base : Nat) (negated : List Dynamic) (before : Emitted)
    (otherwise : Surroundings → List Dynamic → Emitted → Lowered) (loose : List String)
    (survey : Bindings → List String → Bool → Survey) (last : List Chain) (arms : List Branch)
    (hclean : Clean (s.branches base negated before otherwise arms).out.problems)
    (hplain : (Stmt.surveyArms s.vars loose (!negated.isEmpty) survey last arms).plain = true)
    (hproblems : ∀ s negated before,
      before.problems <+: (otherwise s negated before).out.problems)
    (ho : ∀ (vars : Bindings) (negated : List Dynamic) (before : Emitted) (loose : List String),
      Clean (otherwise { s with vars } negated before).out.problems →
      (survey vars loose (!negated.isEmpty)).plain = true →
      Renders s.checker (s.guards ++ negated) (base + before.steps.length) before.steps
        (otherwise { s with vars } negated before) (survey vars loose (!negated.isEmpty))) :
    Renders s.checker (s.guards ++ negated) (base + before.steps.length) before.steps
      (s.branches base negated before otherwise arms)
      (Stmt.surveyArms s.vars loose (!negated.isEmpty) survey last arms) := by
  cases arms with
  | nil =>
    rw [branches] at hclean ⊢
    rw [Stmt.surveyArms] at hplain ⊢
    exact ho s.vars negated before loose hclean hplain
  | cons arm rest =>
    obtain ⟨cond, body, pos⟩ := arm
    have hvalue := s.checker.scalar_value s.vars cond "condition"
    rcases hscalar : s.checker.scalar s.vars cond none none "condition" with ⟨v, ds⟩
    rw [hscalar] at hvalue
    have hsteps : (before ++ notes ds).steps = before.steps := by simp
    rw [Stmt.surveyArms] at hplain ⊢
    cases v with
    | none =>
      have hverdict : s.vars.verdict cond = .never := by rw [Bindings.verdict, ← hvalue]
      simp only [hverdict] at hplain ⊢
      rw [branches_of_none hscalar] at hclean ⊢
      have hrest := branches_renders s base negated (before ++ notes ds) otherwise loose survey last
        rest hclean hplain hproblems ho
      rw [hsteps] at hrest
      exact (hrest.between _ _).reading _
    | some v =>
      by_cases hdynamic : ∃ d, v = .dynamic d
      · obtain ⟨d, rfl⟩ := hdynamic
        have hverdict : s.vars.verdict cond = .perFrame d := by rw [Bindings.verdict, ← hvalue]
        simp only [hverdict, Bool.and_eq_true] at hplain ⊢
        rw [branches_of_dynamic hscalar] at hclean ⊢
        dsimp only at hclean ⊢
        rw [hsteps] at hclean ⊢
        have hbefore := hclean.of_prefix (branches_problems otherwise hproblems rest _ base _ _)
        have hyes := block_renders { s with guards := s.guards ++ negated ++ [d] }
          (base + before.steps.length) loose body (clean_append.1 hbefore).2 hplain.1.1
        have hheld : (!(negated ++ [d.not]).isEmpty) = true := by simp
        have hno := branches_renders
          { s with vars := (block { s with guards := s.guards ++ negated ++ [d] }
              (base + before.steps.length) body).vars }
          base (negated ++ [d.not]) _ otherwise (loose ++ Stmt.boundOf body) survey last rest hclean
          (by rw [hheld, hyes.vars]; exact hplain.2) hproblems ho
        rw [hheld] at hno
        rw [← hyes.vars]
        refine choose_renders (Bindings.fresh_scalar? hvalue.symm) hyes ?_ _ _
        simpa [Nat.add_assoc] using hno
      · have hstatic : ∀ d, v ≠ .dynamic d := fun d heq => hdynamic ⟨d, heq⟩
        have hverdict : s.vars.verdict cond =
            if (v.eval {}).truthy then .always else .never := by
          rw [Bindings.verdict, ← hvalue]
          cases v with
          | dynamic d => exact absurd rfl (hstatic d)
          | _ => rfl
        rw [branches_of_static hscalar hstatic] at hclean ⊢
        by_cases htest : (v.eval {}).truthy
        · simp only [htest, if_true] at hverdict hclean ⊢
          simp only [hverdict] at hplain ⊢
          have hbody := block_renders { s with guards := s.guards ++ negated }
            (base + (before ++ notes ds).steps.length) loose body (clean_append.1 hclean).2
            (Survey.plain_of_underHold hplain)
          have hafter := after_renders negated (before ++ notes ds) hbody body loose
          rw [hsteps] at hafter ⊢
          exact (hafter.between _ _).reading _
        · simp only [htest] at hverdict hclean ⊢
          simp only [hverdict] at hplain ⊢
          have hrest := branches_renders s base negated (before ++ notes ds) otherwise loose survey
            last rest hclean hplain hproblems ho
          rw [hsteps] at hrest
          exact (hrest.between _ _).reading _

end

end Surroundings

/-- A plan is what its program's statements come to, with the search order and the surface to show
that the program names. -/
theorem Program.plan_block {program : Program} {registry : Registry} {options : Options} {p : Plan}
    (hplan : program.plan registry options = .ok p) :
    ∃ out : Emitted, (Surroundings.block { checker := { registry, suggest := options.suggest } } 0
        program.statements).out = out ∧
      p.steps = out.steps ∧ p.diagnostics = out.problems ∧ out.circular = false ∧
      p.search = program.search ∧ p.render = program.render.map (·.1) := by
  unfold Program.plan at hplan
  dsimp only at hplan
  split at hplan
  · cases hplan
  · split at hplan
    · cases hplan
    · next hcircular =>
        obtain rfl := Except.ok.inj hplan
        exact ⟨_, rfl, rfl, rfl, by simpa using hcircular, rfl, rfl⟩

end EffectChain
