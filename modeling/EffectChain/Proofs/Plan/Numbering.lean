import EffectChain.Proofs.Plan.Arrivals
import EffectChain.Proofs.Plan.Provenance

/-!
# EffectChain.Proofs.Plan.Numbering

The numbers of steps.

The steps of a plan are numbered from zero on, and a step takes the result of an earlier one
(`Program.plan_numbered`).  This holds of every program, whether it was read from a source or not.
-/

namespace EffectChain

open Emitted

/-- Steps numbered from `base` on, each of which takes the result of an earlier one of them if of
any. -/
structure Numbered (base : Nat) (steps : List Step) : Prop where
  temps : steps.map (·.temp) = List.range' base steps.length
  sources : ∀ st ∈ steps, ∀ n, st.source = some n → base ≤ n ∧ n < st.temp

namespace Numbered

variable {base : Nat} {steps as bs : List Step} {st st' : Step}

theorem nil (base : Nat) : Numbered base [] := ⟨rfl, by simp⟩

/-- Steps numbered on from one another are numbered. -/
theorem append (ha : Numbered base as) (hb : Numbered (base + as.length) bs) :
    Numbered base (as ++ bs) where
  temps := by rw [List.map_append, ha.temps, hb.temps, List.length_append, List.range'_append_1]
  sources st hst n hn := by
    rcases List.mem_append.1 hst with hst | hst
    · exact ha.sources st hst n hn
    · obtain ⟨hle, hlt⟩ := hb.sources st hst n hn
      exact ⟨by omega, hlt⟩

/-- One step more, which may take the result of any before it. -/
theorem concat (h : Numbered base steps) (htemp : st.temp = base + steps.length)
    (hsource : ∀ n, st.source = some n → base ≤ n ∧ n < st.temp) :
    Numbered base (steps ++ [st]) where
  temps := by simp [h.temps, htemp, List.range'_concat]
  sources := List.forall_mem_append.2 ⟨h.sources, List.forall_mem_singleton.2 hsource⟩

theorem map {f : Step → Step} (h : Numbered base steps) (htemp : ∀ st, (f st).temp = st.temp)
    (hsource : ∀ st, (f st).source = st.source) : Numbered base (steps.map f) where
  temps := by simpa [Function.comp_def, htemp] using h.temps
  sources := List.forall_mem_map.2 fun st hst => by simpa [htemp, hsource] using h.sources st hst

theorem bounds (h : Numbered base steps) (hst : st ∈ steps) :
    base ≤ st.temp ∧ st.temp < base + steps.length := by
  have hmem : st.temp ∈ steps.map (·.temp) := List.mem_map_of_mem hst
  rw [h.temps] at hmem
  simpa [List.mem_range'_1] using hmem

/-- Every number is that of one step. -/
theorem exists_temp (h : Numbered base steps) {n : Nat} (hle : base ≤ n)
    (hlt : n < base + steps.length) :
    ∃ st ∈ steps, st.temp = n := by
  have hmem : n ∈ steps.map (·.temp) := by
    rw [h.temps]
    simpa [List.mem_range'_1] using ⟨hle, hlt⟩
  simpa using hmem

theorem eq_of_temp (h : Numbered base steps) (hst : st ∈ steps) (hst' : st' ∈ steps)
    (htemp : st.temp = st'.temp) :
    st = st' := by
  have hnodup : (steps.map (·.temp)).Nodup := h.temps ▸ List.nodup_range'
  exact List.inj_on_of_nodup_map hnodup hst hst' htemp

end Numbered

namespace Surroundings

variable {s : Surroundings} {sub : LowerChain}

/-! ## chains -/

theorem numbered_setOut {base : Nat} {steps : List Step} (h : Numbered base steps) (temp : Nat)
    (o : Surface) :
    Numbered base (setOut temp o steps) :=
  h.map (fun st => by split <;> rfl) fun st => by split <;> rfl

/-- The nested chain of an argument is numbered. -/
theorem numbered_argument (hsub : ∀ base ch, Numbered base (sub base ch).1.steps) (base : Nat)
    (a : ArgSpec) (e : Expr) : Numbered base (s.argument sub base a e).1.steps := by
  unfold argument
  generalize s.vars.deref e = e
  cases a.type with
  | surface =>
      unfold surfaceArg
      dsimp only
      split
      · exact .nil base
      · split <;> exact .nil base
      · exact hsub base _
      · exact hsub base _
      · exact .nil base
      · exact .nil base
  | string =>
      dsimp only
      split <;> exact .nil base
  | _ => exact .nil base

/-- Taking one more argument keeps steps numbered. -/
theorem numbered_take (hsub : ∀ base ch, Numbered base (sub base ch).1.steps) (base : Nat)
    (given : Table Expr) {r : Arguments} (a : ArgSpec) (h : Numbered base r.out.steps) :
    Numbered base (Arguments.take s sub base given r a).out.steps := by
  have hwritten := numbered_argument (s := s) hsub (base + r.out.steps.length) a
  rcases take_cases s sub base given r a with ⟨e, out, v, -, harg, htake⟩ | ⟨out, hunwritten, htake⟩
  · have hout := hwritten e
    rw [harg] at hout
    rw [htake]
    exact h.append hout
  · have hout : Numbered (base + r.out.steps.length) out.steps := by
      rcases hunwritten with ⟨-, rfl⟩ | ⟨e, -, harg⟩
      · exact .nil _
      · have hout := hwritten e
        rwa [harg] at hout
    rcases htake with ⟨v, -, htake⟩ | htake
    · rw [htake]
      exact h.append hout
    · rw [htake]
      exact h.append hout

/-- The nested chains of arguments are numbered. -/
theorem numbered_arguments (hsub : ∀ base ch, Numbered base (sub base ch).1.steps) (base : Nat)
    (c : Call) (spec : OpSpec) : Numbered base (s.arguments sub base c spec).out.steps := by
  have hfold : ∀ (as : List ArgSpec) (given : Table Expr) (r : Arguments),
      Numbered base r.out.steps →
      Numbered base (as.foldl (Arguments.take s sub base given) r).out.steps := by
    intro as given
    induction as with
    | nil => exact fun r h => h
    | cons a as ih => exact fun r h => ih _ (numbered_take hsub base given a h)
  exact hfold spec.args _ _ (.nil base)

/-- The steps so far are numbered, and the last of them is the last one of the chain. -/
structure Progress.Numbered (base : Nat) (p : Progress) : Prop where
  steps : EffectChain.Numbered base p.out.steps
  last : ∀ n, p.last = some n → base ≤ n ∧ n + 1 = base + p.out.steps.length

/-- A call of a chain adds the steps of its arguments and its own, or a problem only. -/
theorem next_cases (s : Surroundings) (sub : LowerChain) (base : Nat) (p : Progress) (c : Call) :
    (∃ spec, (∀ cs, s.taken p.last.isSome (c :: cs) = (c, spec) :: s.taken true cs) ∧
      (Progress.next s sub base p c).out = p.out ++
        ((s.arguments sub (base + p.out.steps.length) c spec).out ++
        { steps := [s.stepOf sub (base + p.out.steps.length) c spec p.last] }) ∧
      (Progress.next s sub base p c).last =
        some (s.stepOf sub (base + p.out.steps.length) c spec p.last).temp) ∨
    (∀ cs, s.taken p.last.isSome (c :: cs) = s.taken p.last.isSome cs) ∧
      (Progress.next s sub base p c).last = p.last ∧
      ∃ ds, (Progress.next s sub base p c).out = p.out ++ notes ds := by
  simp only [taken]
  unfold Progress.next
  dsimp only
  cases resolve? s.checker.registry c with
  | none => exact .inr ⟨fun _ => rfl, rfl, _, rfl⟩
  | some spec =>
      have hnone : p.last.isNone = !p.last.isSome := by cases p.last <;> rfl
      dsimp only
      rw [hnone]
      by_cases hinput : (!p.last.isSome && !s.checker.registry.ops.isStarter spec.name &&
          !s.checker.registry.ops.isPassthrough spec.name) = true
      · simp only [if_pos hinput]
        exact .inr ⟨fun _ => trivial, trivial, _, rfl⟩
      · by_cases hmiddle : (p.last.isSome && s.checker.registry.ops.isStarter spec.name) = true
        · simp only [if_neg hinput, if_pos hmiddle]
          exact .inr ⟨fun _ => trivial, trivial, _, rfl⟩
        · simp only [if_neg hinput, if_neg hmiddle]
          exact .inl ⟨spec, fun _ => rfl, rfl, rfl⟩

/-- One more call keeps a chain numbered. -/
theorem numbered_next (hsub : ∀ base ch, Numbered base (sub base ch).1.steps) (base : Nat)
    {p : Progress} (c : Call) (h : p.Numbered base) :
    (Progress.next s sub base p c).Numbered base := by
  rcases next_cases s sub base p c with ⟨spec, -, hout, hlast⟩ | ⟨-, hlast, ds, hout⟩
  · have hargs := numbered_arguments (s := s) hsub (base + p.out.steps.length) c spec
    refine ⟨?_, fun n hn => ?_⟩
    · rw [hout, steps_append, steps_append, ← List.append_assoc]
      refine (h.steps.append hargs).concat (by simp [stepOf, Nat.add_assoc]) fun n hn => ?_
      obtain ⟨hle, hbefore⟩ := h.last n hn
      exact ⟨hle, by simp only [stepOf]; omega⟩
    · rw [hlast] at hn
      obtain rfl := Option.some.inj hn
      rw [hout]
      simp only [stepOf, steps_append, List.length_append, List.length_singleton]
      omega
  · exact ⟨by simpa [hout] using h.steps, by simpa [hout, hlast] using h.last⟩

/-- More calls keep a chain numbered. -/
theorem numbered_foldl_next (hsub : ∀ base ch, Numbered base (sub base ch).1.steps) (base : Nat)
    (cs : List Call) {p : Progress} (h : p.Numbered base) :
    (cs.foldl (Progress.next s sub base) p).Numbered base := by
  induction cs generalizing p with
  | nil => exact h
  | cons c cs ih => exact ih (numbered_next hsub base c h)

theorem Progress.Numbered.begin (base : Nat) (ds : List Diagnostic) :
    Progress.Numbered base { out := notes ds } := ⟨.nil base, nofun⟩

/-- A chain is numbered. -/
theorem numbered_chainWith (hsub : ∀ base ch, Numbered base (sub base ch).1.steps)
    (isArgument : Bool) (base : Nat) (ch : Chain) :
    Numbered base (s.chainWith sub isArgument base ch).1.steps := by
  have hcalls := numbered_foldl_next (s := s) hsub base (s.vars.expandChain ch).1
    (.begin base (s.vars.expandChain ch).2)
  unfold chainWith
  dsimp only
  generalize (s.vars.expandChain ch).1.foldl (Progress.next s sub base) _ = p at hcalls
  split
  · exact hcalls.steps
  · split
    · split
      · simpa using numbered_setOut hcalls.steps _ _
      · simpa using hcalls.steps
    · split
      · split
        · exact hcalls.steps
        · simpa using hcalls.steps
      · exact hcalls.steps

/-- A nested chain is numbered, at every depth. -/
theorem numbered_subchain (s : Surroundings) (depth base : Nat) (ch : Chain) :
    Numbered base (s.subchain depth base ch).1.steps := by
  induction depth generalizing base ch with
  | zero => exact .nil base
  | succ depth ih => exact numbered_chainWith ih true base ch

theorem numbered_chain (s : Surroundings) (base : Nat) (ch : Chain) :
    Numbered base (s.chain base ch).steps :=
  numbered_chainWith (s.numbered_subchain _) false base ch

end Surroundings

/-! ## programs -/

/-- Numbering is gathered from the chains. -/
theorem gathers_numbered : Gathers Numbered where
  nil := .nil
  append := .append
  repeated n factor h := h.map (fun st => by rw [Surroundings.repeated_fst]) fun st => by
    rw [Surroundings.repeated_fst]

/-- The steps of a plan are numbered from zero on. -/
theorem Program.plan_numbered {program : Program} {registry : Registry} {options : Options}
    {p : Plan} (hplan : program.plan registry options = .ok p) : Numbered 0 p.steps := by
  obtain ⟨out, hout, hsteps, -⟩ := Program.plan_block hplan
  rw [hsteps, ← hout]
  exact Surroundings.gathered_block gathers_numbered program.statements _ 0 fun s base ch _ =>
    s.numbered_chain base ch

end EffectChain
