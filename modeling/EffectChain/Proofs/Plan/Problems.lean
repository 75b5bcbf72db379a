import EffectChain.Proofs.Plan.Outs

/-!
# EffectChain.Proofs.Plan.Problems

What part of a program a problem is one of.

The values of arguments, the calls of a chain and the variables in it have problems of calls
(`Problem.ofCall`); that a chain is written nowhere and the problems of loops are not among them.
So an argument has no problem of a chain statement, however deep the chains in it are nested
(`Surroundings.ofCalls_subchain`), and a chain statement none of a loop. -/

namespace EffectChain

open Emitted

/-- A problem of a call or of something that is written in one, not of a chain statement, a block or
a loop. -/
def Problem.ofCall : Problem → Bool
  | .chainWithoutOut _ | .loopTooLong _ | .loopsTooLong | .loopNotNumeric | .nestedDynamicLoops
  | .flowOutsideLoop _ | .unreachable | .loopNeverRuns => false
  | _ => true

/-- All problems are those of calls. -/
def OfCalls (ds : List Diagnostic) : Prop := ∀ d ∈ ds, d.problem.ofCall = true

@[simp] theorem ofCalls_nil : OfCalls [] := by simp [OfCalls]

@[simp] theorem ofCalls_cons {d : Diagnostic} {ds : List Diagnostic} :
    OfCalls (d :: ds) ↔ d.problem.ofCall = true ∧ OfCalls ds := by
  simp [OfCalls]

@[simp] theorem ofCalls_append {ds es : List Diagnostic} :
    OfCalls (ds ++ es) ↔ OfCalls ds ∧ OfCalls es := by
  simp [OfCalls, or_imp, forall_and]

/-! ## values -/

namespace Checker

variable {k : Checker} {vars : Bindings} {a : ArgSpec}

theorem ofCalls_refused {α : Type} {p : Problem} (h : p.ofCall = true) (pos : Pos) :
    OfCalls (refused p pos : Noted (Option α)).2 := by
  simp [refused, h]

theorem ofCalls_accepted {α : Type} (x : α) : OfCalls (accepted x).2 := ofCalls_nil

theorem ofCalls_mismatch (e : Expr) : OfCalls (mismatch a e).2 := ofCalls_refused rfl _

/-- The field of a wave reports only problems of its call. -/
theorem ofCalls_waveArgument (name : String) (o : Oscillator) (field : String) (e : Expr) :
    OfCalls (waveArgument name o field e).2 := by
  unfold waveArgument
  split
  · exact ofCalls_accepted _
  · exact ofCalls_refused rfl _

/-- The positional arguments of a wave report only problems of its call. -/
theorem ofCalls_wavePositional (name : String) (o : Oscillator) (fields : List String)
    (es : List Expr) :
    OfCalls (wavePositional name o fields es).2 := by
  fun_induction wavePositional name o fields es with
  | case1 => exact ofCalls_accepted _
  | case2 => exact ofCalls_refused rfl _
  | case3 _ _ _ _ _ _ _ _ ih => exact ih
  | case4 o f fs e es => exact ofCalls_waveArgument name o f e

/-- The keywords of a wave report only problems of its call. -/
theorem ofCalls_waveKeywords (name : String) (o : Oscillator) (kws : List Keyword) :
    OfCalls (k.waveKeywords name o kws).2 := by
  fun_induction waveKeywords k name o kws with
  | case1 => exact ofCalls_accepted _
  | case2 _ _ _ _ _ _ _ ih => exact ih
  | case3 o kw => exact ofCalls_waveArgument name o kw.name kw.value
  | case4 => exact ofCalls_cons.2 ⟨rfl, ofCalls_nil⟩

/-- An oscillator reports only problems of its call. -/
theorem ofCalls_oscillator (c : Call) : OfCalls (k.oscillator c).2 := by
  unfold oscillator
  split
  · exact ofCalls_waveKeywords _ _ _
  · exact ofCalls_wavePositional _ _ _ _

/-- A scalar reports only problems of its call. -/
theorem ofCalls_scalar (e : Expr) (min max : Option Float) (what : String) :
    OfCalls (k.scalar vars e min max what).2 := by
  unfold scalar
  split
  · exact ofCalls_accepted _
  · exact ofCalls_accepted _
  · split
    · exact ofCalls_accepted _
    · exact ofCalls_refused rfl _
  · split
    · exact ofCalls_accepted _
    · exact ofCalls_cons.2 ⟨rfl, ofCalls_nil⟩
  · next c _ =>
    split
    · have hproblems := k.ofCalls_oscillator c
      split <;> rename_i heq <;> rw [heq] at hproblems <;> exact hproblems
    · exact ofCalls_refused rfl _
  · exact ofCalls_refused rfl _

/-- A member argument reports only problems of its call. -/
theorem ofCalls_memberArg (e : Expr) : OfCalls (k.memberArg a e).2 := by
  unfold memberArg
  dsimp only
  split
  · exact ofCalls_accepted _
  case h_2 | h_3 | h_4 =>
    split
    · exact ofCalls_accepted _
    · exact ofCalls_cons.2 ⟨rfl, ofCalls_nil⟩
  · exact ofCalls_mismatch _

/-- A number argument reports only problems of its call. -/
theorem ofCalls_numberArg (e : Expr) : OfCalls (k.numberArg vars a e).2 := by
  unfold numberArg
  dsimp only
  split
  · generalize (if a.type = .int then Number.round _ else _) = x
    split
    · exact ofCalls_cons.2 ⟨rfl, ofCalls_nil⟩
    · exact ofCalls_nil
  case h_2 | h_3 | h_4 | h_5 | h_6 => exact ofCalls_mismatch _
  · split
    · exact ofCalls_memberArg _
    · exact ofCalls_scalar _ _ _ _
  · split
    · exact ofCalls_memberArg _
    · split
      · exact ofCalls_accepted _
      · exact ofCalls_refused rfl _
  · split
    · exact ofCalls_scalar _ _ _ _
    · exact ofCalls_mismatch _
  · exact ofCalls_scalar _ _ _ _

/-- A switch argument reports only problems of its call. -/
theorem ofCalls_boolArg (e : Expr) : OfCalls (k.boolArg vars a e).2 := by
  unfold boolArg
  split
  · exact ofCalls_accepted _
  · exact ofCalls_accepted _
  · exact ofCalls_scalar _ _ _ _
  · exact ofCalls_scalar _ _ _ _
  · exact ofCalls_mismatch _

/-- A vector argument reports only problems of its call. -/
theorem ofCalls_vectorArg (e : Expr) : OfCalls (vectorArg a e).2 := by
  unfold vectorArg
  dsimp only
  split
  · exact ofCalls_accepted _
  · split
    · exact ofCalls_mismatch _
    · generalize (if _ = "vec4" then 4 else 3) = count
      split
      · exact ofCalls_refused rfl _
      · split
        · exact ofCalls_refused rfl _
        · exact ofCalls_accepted _
  · exact ofCalls_mismatch _

end Checker

/-! ## variables -/

namespace Bindings

/-- Expanding a call reports only problems of it. -/
theorem ofCalls_expandCall (vars : Bindings) (c : Call) : OfCalls (vars.expandCall c).2 := by
  unfold expandCall
  split
  · exact ofCalls_nil
  · split
    case h_5 =>
      dsimp only
      split
      · exact ofCalls_nil
      · exact ofCalls_cons.2 ⟨rfl, ofCalls_nil⟩
    all_goals simp [Problem.ofCall]

/-- Expanding a base reports only problems of calls. -/
theorem ofCalls_expandBase (vars : Bindings) (ch : Chain) : OfCalls (vars.expandBase ch).2 := by
  unfold expandBase
  split
  · exact ofCalls_nil
  · split <;> simp [Problem.ofCall]

/-- Expanding a chain reports only problems of its calls. -/
theorem ofCalls_expandChain (vars : Bindings) (ch : Chain) : OfCalls (vars.expandChain ch).2 := by
  rw [expandChain_eq]
  simp only [ofCalls_append]
  refine ⟨ofCalls_expandBase vars ch, fun d hd => ?_⟩
  obtain ⟨c, -, hc⟩ := List.mem_flatMap.1 hd
  exact ofCalls_expandCall vars c d hc

/-- A binding reports only problems of calls. -/
theorem ofCalls_bind (vars : Bindings) (name : String) (value : Expr) :
    OfCalls (vars.bind name value).2 := by
  unfold bind
  split
  · exact ofCalls_nil
  · next c =>
    have hproblems := ofCalls_expandCall vars c
    split <;> rename_i heq <;> rw [heq] at hproblems <;> exact hproblems
  · exact ofCalls_expandChain _ _
  · exact ofCalls_nil

end Bindings

/-! ## calls and chains -/

namespace Surroundings

variable {s : Surroundings} {sub : LowerChain}

/-- Giving arguments by position reports only problems of the call. -/
theorem ofCalls_positional (canonical : String) (given : Table Expr) (as : List ArgSpec)
    (es : List Expr) :
    OfCalls (positional canonical given as es).2 := by
  fun_induction positional canonical given as es with
  | case1 => exact ofCalls_nil
  | case2 => exact ofCalls_cons.2 ⟨rfl, ofCalls_nil⟩
  | case3 _ _ _ _ _ ih => exact ih

/-- Giving arguments by keyword reports only problems of the call. -/
theorem ofCalls_keywords (k : Checker) (spec : OpSpec) (canonical : String) (given : Table Expr)
    (kws : List Keyword) :
    OfCalls (keywords k spec canonical given kws).2 := by
  fun_induction keywords k spec canonical given kws with
  | case1 => exact ofCalls_nil
  | case2 _ _ _ _ ih => exact ih
  | case3 _ _ _ _ all ds hall ih => exact ofCalls_cons.2 ⟨rfl, by rw [hall] at ih; exact ih⟩

/-- An argument reports only problems of calls, if its nested chain does. -/
theorem ofCalls_argument (hsub : ∀ base ch, OfCalls (sub base ch).1.problems) (base : Nat)
    (a : ArgSpec) (e : Expr) :
    OfCalls (s.argument sub base a e).1.problems := by
  unfold argument
  generalize s.vars.deref e = e
  cases a.type with
  | surface =>
      unfold surfaceArg
      dsimp only
      split
      · exact ofCalls_nil
      · split
        · exact ofCalls_nil
        · exact Checker.ofCalls_mismatch _
      · exact hsub _ _
      · exact hsub _ _
      · exact ofCalls_cons.2 ⟨rfl, ofCalls_nil⟩
      · exact Checker.ofCalls_mismatch _
  | float | int => exact Checker.ofCalls_numberArg e
  | boolean => exact Checker.ofCalls_boolArg e
  | string =>
      dsimp only
      split
      · exact ofCalls_nil
      · exact Checker.ofCalls_mismatch _
  | color | vec3 | vec4 => exact Checker.ofCalls_vectorArg e
  | member => exact Checker.ofCalls_memberArg e

/-- The arguments of a call report only problems of calls, if their nested chains do. -/
theorem ofCalls_arguments (hsub : ∀ base ch, OfCalls (sub base ch).1.problems) (base : Nat)
    (c : Call) (spec : OpSpec) :
    OfCalls (s.arguments sub base c spec).out.problems := by
  have hfold : ∀ (as : List ArgSpec) (given : Table Expr) (r : Arguments), OfCalls r.out.problems →
      OfCalls (as.foldl (Arguments.take s sub base given) r).out.problems := by
    intro as given
    induction as with
    | nil => exact fun r h => h
    | cons a as ih =>
        intro r h
        refine ih _ ?_
        have hwritten := fun e => ofCalls_argument (s := s) hsub (base + r.out.steps.length) a e
        rcases take_cases s sub base given r a with ⟨e, out, v, -, harg, htake⟩
          | ⟨out, hunwritten, htake⟩
        · have hout := hwritten e
          rw [harg] at hout
          rw [htake]
          exact ofCalls_append.2 ⟨h, hout⟩
        · have hout : OfCalls out.problems := by
            rcases hunwritten with ⟨-, rfl⟩ | ⟨e, -, harg⟩
            · exact ofCalls_nil
            · have hout := hwritten e
              rwa [harg] at hout
          rcases htake with ⟨v, -, htake⟩ | htake <;> rw [htake]
            <;> exact ofCalls_append.2 ⟨h, hout⟩
  refine hfold spec.args _ _ ?_
  exact ofCalls_append.2 ⟨ofCalls_positional _ _ _ _, ofCalls_keywords _ _ _ _ _⟩

/-- The target of an `out` reports only problems of calls. -/
theorem ofCalls_outTarget (vars : Bindings) (e : Expr) : OfCalls (outTarget vars e).2 := by
  unfold outTarget
  split
  · split
    · exact Checker.ofCalls_accepted _
    · exact Checker.ofCalls_refused rfl _
  · exact Checker.ofCalls_refused rfl _
  · exact Checker.ofCalls_refused rfl _

/-- One more call of a chain reports only problems of calls. -/
theorem ofCalls_next (hsub : ∀ base ch, OfCalls (sub base ch).1.problems) (base : Nat)
    {p : Progress} (c : Call) (h : OfCalls p.out.problems) :
    OfCalls (Progress.next s sub base p c).out.problems := by
  unfold Progress.next
  dsimp only
  split
  · exact ofCalls_append.2 ⟨h, ofCalls_cons.2 ⟨rfl, ofCalls_nil⟩⟩
  · split
    · exact ofCalls_append.2 ⟨h, ofCalls_cons.2 ⟨rfl, ofCalls_nil⟩⟩
    · split
      · exact ofCalls_append.2 ⟨h, ofCalls_cons.2 ⟨rfl, ofCalls_nil⟩⟩
      · exact ofCalls_append.2 ⟨h, ofCalls_append.2 ⟨ofCalls_arguments hsub _ c _, ofCalls_nil⟩⟩

/-- The calls of a chain have problems of calls. -/
theorem ofCalls_calls (hsub : ∀ base ch, OfCalls (sub base ch).1.problems) (base : Nat)
    (ch : Chain) :
    OfCalls (s.calls sub base ch).out.problems := by
  have hfold : ∀ (cs : List Call) (p : Progress), OfCalls p.out.problems →
      OfCalls (cs.foldl (Progress.next s sub base) p).out.problems := by
    intro cs
    induction cs with
    | nil => exact fun p h => h
    | cons c cs ih => exact fun p h => ih _ (ofCalls_next hsub base c h)
  exact hfold _ _ (s.vars.ofCalls_expandChain ch)

/-- A chain statement that is written nowhere has a problem besides those of its calls; a chain
among arguments has none. -/
theorem ofCalls_chainWith (hsub : ∀ base ch, OfCalls (sub base ch).1.problems) (isArgument : Bool)
    (base : Nat) (ch : Chain) :
    OfCalls (s.chainWith sub isArgument base ch).1.problems ∨
      isArgument = false ∧ ∃ op ds, (s.chainWith sub isArgument base ch).1.problems =
        ds ++ [{ problem := .chainWithoutOut op, pos := ch.pos }] ∧ OfCalls ds := by
  have hcalls := ofCalls_calls (s := s) hsub base ch
  unfold chainWith
  dsimp only
  rw [show (s.vars.expandChain ch).1.foldl (Progress.next s sub base)
    { out := notes (s.vars.expandChain ch).2 } =
    s.calls sub base ch from rfl]
  split
  · exact .inl hcalls
  · split
    · next e _ =>
      have htarget := ofCalls_outTarget s.vars e
      split <;> rename_i heq <;> rw [heq] at htarget
        <;> exact .inl (ofCalls_append.2 ⟨hcalls, htarget⟩)
    · split
      · split
        · exact .inl hcalls
        · next harg => exact .inr ⟨by simpa using harg, _, _, rfl, hcalls⟩
      · exact .inl hcalls

/-- Chains among arguments, however deep, have problems of calls. -/
theorem ofCalls_subchain (s : Surroundings) (depth base : Nat) (ch : Chain) :
    OfCalls (s.subchain depth base ch).1.problems := by
  induction depth generalizing base ch with
  | zero => exact ofCalls_nil
  | succ depth ih => exact (ofCalls_chainWith ih true base ch).resolve_right (by simp)

end Surroundings

end EffectChain
