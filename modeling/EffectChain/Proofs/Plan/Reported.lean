import EffectChain.Proofs.Plan.Outs

/-!
# EffectChain.Proofs.Plan.Reported

What is refused is reported.

* `Checker.told_scalar`, `Checker.told_numberArg` and others — an argument without a value comes
  with a problem;
* `Surroundings.told_chainWith` — so does a chain that comes to no step, if it has calls;
* `Surroundings.told_argument` — so does every argument, if the chains that are nested do.
-/

namespace EffectChain

open Emitted

/-- There is a value or a problem. -/
def Noted.Told {α : Type} (r : Noted (Option α)) : Prop := r.1 = none → r.2 ≠ []

namespace Checker

variable {k : Checker} {vars : Bindings} {a : ArgSpec}

theorem told_refused {α : Type} (p : Problem) (pos : Pos) :
    Noted.Told (refused p pos : Noted (Option α)) := by
  simp [Noted.Told, refused]

theorem told_accepted {α : Type} (x : α) : Noted.Told (accepted x) := nofun

/-- A field of a wave that is refused is reported. -/
theorem told_waveArgument (name : String) (o : Oscillator) (field : String) (e : Expr) :
    (waveArgument name o field e).Told := by
  unfold waveArgument
  split
  · exact told_accepted _
  · exact told_refused _ _

/-- A positional argument of a wave that is refused is reported. -/
theorem told_wavePositional (name : String) (o : Oscillator) (fields : List String)
    (es : List Expr) :
    (wavePositional name o fields es).Told := by
  fun_induction wavePositional name o fields es with
  | case1 => exact told_accepted _
  | case2 => exact told_refused _ _
  | case3 _ _ _ _ _ _ _ _ ih => exact ih
  | case4 o f fs e es => exact told_waveArgument name o f e

/-- A keyword of a wave that is refused is reported. -/
theorem told_waveKeywords (name : String) (o : Oscillator) (kws : List Keyword) :
    (k.waveKeywords name o kws).Told := by
  fun_induction waveKeywords k name o kws with
  | case1 => exact told_accepted _
  | case2 _ _ _ _ _ _ _ ih => exact ih
  | case3 o kw => exact told_waveArgument name o kw.name kw.value
  | case4 => simp [Noted.Told]

/-- An oscillator that is refused is reported. -/
theorem told_oscillator (c : Call) : (k.oscillator c).Told := by
  unfold oscillator
  split
  · exact told_waveKeywords _ _ _
  · exact told_wavePositional _ _ _ _

/-- A scalar that is refused is reported. -/
theorem told_scalar (e : Expr) (min max : Option Float) (what : String) :
    (k.scalar vars e min max what).Told := by
  unfold scalar
  split
  · exact told_accepted _
  · exact told_accepted _
  · split
    · exact told_accepted _
    · exact told_refused _ _
  · split
    · exact told_accepted _
    · simp [Noted.Told]
  · next c _ =>
    split
    · have htold := k.told_oscillator c
      split
      · exact nofun
      · next heq =>
        rw [heq] at htold
        exact fun _ => htold rfl
    · exact told_refused _ _
  · exact told_refused _ _

/-- A member argument that is refused is reported. -/
theorem told_memberArg (e : Expr) : (k.memberArg a e).Told := by
  unfold memberArg
  dsimp only
  split
  · exact told_accepted _
  case h_2 | h_3 | h_4 =>
    split
    · exact told_accepted _
    · simp [Noted.Told]
  · exact told_refused _ _

/-- A number argument that is refused is reported. -/
theorem told_numberArg (e : Expr) : (k.numberArg vars a e).Told := by
  unfold numberArg
  dsimp only
  split
  · exact nofun
  case h_2 | h_3 | h_4 | h_5 | h_6 => exact told_refused _ _
  · split
    · exact told_memberArg _
    · exact told_scalar _ _ _ _
  · split
    · exact told_memberArg _
    · split
      · exact told_accepted _
      · exact told_refused _ _
  · split
    · exact told_scalar _ _ _ _
    · exact told_refused _ _
  · exact told_scalar _ _ _ _

/-- A switch argument that is refused is reported. -/
theorem told_boolArg (e : Expr) : (k.boolArg vars a e).Told := by
  unfold boolArg
  split
  · exact told_accepted _
  · exact told_accepted _
  · exact told_scalar _ _ _ _
  · exact told_scalar _ _ _ _
  · exact told_refused _ _

/-- A vector argument that is refused is reported. -/
theorem told_vectorArg (e : Expr) : (vectorArg a e).Told := by
  unfold vectorArg
  dsimp only
  split
  · exact told_accepted _
  · split
    · exact told_refused _ _
    · generalize (if _ = "vec4" then 4 else 3) = count
      split
      · exact told_refused _ _
      · split
        · exact told_refused _ _
        · exact told_accepted _
  · exact told_refused _ _

end Checker

namespace Surroundings

variable {s : Surroundings} {sub : LowerChain}

/-! ## chains -/

/-- The first call of a chain becomes a step, or there is a problem. -/
theorem told_next (base : Nat) {p : Progress} {c : Call}
    (h : (Progress.next s sub base p c).last = none) :
    (Progress.next s sub base p c).out.problems ≠ [] := by
  unfold Progress.next at h ⊢
  dsimp only at h ⊢
  split
  · simp
  · split
    · simp
    · split
      · simp
      · simp_all

/-- A chain with a step keeps one, whatever calls follow. -/
theorem last_foldl_next_ne_none (base : Nat) (cs : List Call) {p : Progress} (h : p.last ≠ none) :
    (cs.foldl (Progress.next s sub base) p).last ≠ none := by
  induction cs generalizing p with
  | nil => exact h
  | cons c cs ih =>
      refine ih ?_
      rcases next_cases s sub base p c with ⟨spec, -, -, hlast⟩ | ⟨-, hlast, -⟩ <;> simp [hlast, h]

/-- A chain of calls comes to a step, or there is a problem. -/
theorem told_chainWith (sub : LowerChain) (isArgument : Bool) (base : Nat) {ch : Chain}
    (hcalls : (s.vars.expandChain ch).1 ≠ [] ∨ (s.vars.expandChain ch).2 ≠ [])
    (h : (s.chainWith sub isArgument base ch).2 = none) :
    (s.chainWith sub isArgument base ch).1.problems ≠ [] := by
  rw [(s.steps_chainWith sub isArgument base ch).1] at h
  have hmore : ∀ ds : List Diagnostic, ds ≠ [] → ds ⊆ (s.calls sub base ch).out.problems →
      (s.chainWith sub isArgument base ch).1.problems ≠ [] := by
    intro ds hds hsub hnil
    have hall := List.Subset.trans hsub (s.chainWith_calls sub isArgument base ch).2.1.subset
    rw [hnil, List.subset_nil] at hall
    exact hds hall
  rcases hcalls with hcalls | hproblems
  · unfold calls at h hmore
    obtain ⟨c, cs, hcs⟩ := List.exists_cons_of_ne_nil hcalls
    rw [hcs, List.foldl_cons] at h hmore
    refine hmore _ (told_next (s := s) base ?_) (among_foldl_next base cs _).problems
    by_contra hlast
    exact last_foldl_next_ne_none base cs hlast h
  · exact hmore _ hproblems (among_foldl_next base (s.vars.expandChain ch).1
      { out := notes (s.vars.expandChain ch).2 }).problems

/-! ## arguments -/

/-- An argument without a value is reported. -/
theorem told_argument {a : ArgSpec} {e : Expr} {base : Nat}
    (hsub : a.type = .surface → ∀ ch, (s.vars.deref e).asChain? = some ch → (sub base ch).2 = none →
      (sub base ch).1.problems ≠ [])
    (h : (s.argument sub base a e).2 = none) : (s.argument sub base a e).1.problems ≠ [] := by
  unfold argument at h ⊢
  generalize s.vars.deref e = e at hsub h ⊢
  cases ht : a.type with
  | surface =>
      rw [ht] at h
      cases e with
      | call c => exact hsub ht _ rfl (Option.map_eq_none_iff.1 h)
      | chain ch => exact hsub ht _ rfl (Option.map_eq_none_iff.1 h)
      | string t pos =>
          dsimp only [surfaceArg] at h ⊢
          split at h
          · cases h
          · simp [Checker.mismatch, Checker.refused]
      | surface t pos => cases h
      | _ => simp [surfaceArg, Checker.mismatch, Checker.refused]
  | float | int =>
      rw [ht] at h
      exact Checker.told_numberArg _ h
  | boolean =>
      rw [ht] at h
      exact Checker.told_boolArg _ h
  | string =>
      rw [ht] at h
      dsimp only at h ⊢
      split at h
      · cases h
      · simp [Checker.mismatch, Checker.refused]
  | color | vec3 | vec4 =>
      rw [ht] at h
      exact Checker.told_vectorArg _ h
  | member =>
      rw [ht] at h
      exact Checker.told_memberArg _ h

end Surroundings

end EffectChain
