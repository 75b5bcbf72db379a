import Mathlib
import EffectChain.Proofs.Plan.Forest
import EffectChain.Proofs.Plan.Provenance

/-!
# EffectChain.Proofs.Plan.Dependency

Plans as forests.

Only a chain that is given for a surface makes a step take the result of another as an
argument (`Surroundings.rooted_argument`), and it is lowered just before that step.  So the
steps of a chain statement are one tree (`Surroundings.rooted_chainWith`), and lowering
keeps forests (`kept_forest`).

* `plan_dependencyForest` — a plan is a forest in the order of its dependencies;
* `plan_linked_alike` — a step stands under the guards and loops of what it takes.
-/

namespace EffectChain

open Emitted

/-! ## registries -/

namespace Operations

/-- Operations that were registered, removed and marked one after another. -/
inductive Built : Operations → Prop
  | empty : Built {}
  | register {o o' : Operations} (h : Built o) {name : String} {args : List ArgSpec}
      (hok : o.register name args = .ok o') : Built o'
  | unregister {o : Operations} (h : Built o) (name : String) : Built (o.unregister name)
  | markStarters {o : Operations} (h : Built o) (names : List String) : Built (o.markStarters names)
  | markPassthrough {o : Operations} (h : Built o) (names : List String) : Built
      (o.markPassthrough names)

/-- Parameters that are accepted have different names. -/
theorem nodup_of_badArg? {seen : List String} {as : List ArgSpec}
    (h : OpSpec.badArg? seen as = none) :
    (as.map (·.name)).Nodup ∧ ∀ a ∈ as, a.name ∉ seen := by
  fun_induction OpSpec.badArg? seen as with
  | case1 => simp
  | case2 => cases h
  | case3 seen a as hgood ih =>
      obtain ⟨hnodup, hfresh⟩ := ih h
      simp only [List.map_cons, List.nodup_cons, List.mem_map, List.forall_mem_cons]
      refine ⟨⟨?_, hnodup⟩, ?_, fun b hb => List.not_mem_of_not_mem_cons (hfresh b hb)⟩
      · rintro ⟨b, hb, heq⟩
        exact hfresh b hb (by simp [heq])
      · simp_all

/-- The arguments of an operation have different names. -/
theorem Built.nodup {o : Operations} (h : o.Built) {name : String} {spec : OpSpec}
    (hspec : o.lookup? name = some spec) : (spec.args.map (·.name)).Nodup := by
  unfold lookup? at hspec
  induction h with
  | empty => simp at hspec
  | @register o o' _ key args hok ih =>
      unfold Operations.register at hok
      split at hok
      · cases hok
      · split at hok
        · cases hok
        · rename_i hargs
          obtain rfl := Except.ok.inj hok
          rw [Table.get?_insert] at hspec
          split at hspec
          · obtain rfl := Option.some.inj hspec
            exact (nodup_of_badArg? hargs).1
          · exact ih hspec
  | unregister _ key ih =>
      rw [Operations.unregister, Table.get?_erase] at hspec
      split at hspec
      · cases hspec
      · exact ih hspec
  | markStarters _ _ ih => exact ih hspec
  | markPassthrough _ _ ih => exact ih hspec

end Operations

/-! ## values that are no results -/

namespace Value

variable {v : Value}

/-- Only a temporary refers to a step. -/
theorem temp?_ref {x : Surface} (h : x.kind ≠ .temp) : (Value.ref x).temp? = none := by
  obtain ⟨kind, n⟩ := x
  cases kind with
  | temp => exact absurd rfl h
  | _ => rfl

theorem Numeric.temp?_eq {min max : Option Float} (h : v.Numeric min max) : v.temp? = none := by
  cases v with
  | ref => cases h
  | _ => rfl

theorem Plain.temp?_eq (h : v.Plain) : v.temp? = none := by
  cases v with
  | ref => cases h
  | _ => rfl

end Value

namespace Checker

variable {k : Checker} {a : ArgSpec} {v : Value}

/-- A vector refers to no step. -/
theorem temp?_vectorArg {e : Expr} (h : (vectorArg a e).1 = some v) : v.temp? = none := by
  unfold vectorArg at h
  dsimp only at h
  split at h
  · cases h
    rfl
  · split at h
    · cases h
    · generalize (if _ = "vec4" then 4 else 3) = size at h
      split at h
      · cases h
      · split at h <;> cases h
        rfl
  · cases h

/-- A default is no result of a step. -/
theorem temp?_defaultValue (h : k.defaultValue a = some v) : v.temp? = none := by
  obtain ⟨s, x, hx, rfl⟩ | ⟨s, -, -, rfl⟩ | hplain := defaultValue_cases h
  · exact Value.temp?_ref (Surface.kind_of_ofName? hx)
  · rfl
  · exact hplain.temp?_eq

end Checker

/-! ## calls -/

/-- A value for an argument that had none stands among the others. -/
theorem Table.values_insert {α : Type} {t : Table α} {k : String} (v : α) (h : t.get? k = none) :
    (t.insert k v).values.Perm (v :: t.values) := by
  have hentries : ∀ es : List (String × α), es.lookup k = none →
      ((insertEntry k v es).map (·.2)).Perm (v :: es.map (·.2)) := by
    intro es hes
    fun_induction insertEntry k v es with
    | case1 => exact .refl _
    | case2 => exact .refl _
    | case3 => simp at hes
    | case4 k' v' rest _ hne ih =>
        rw [lookup_cons_eq, if_neg hne] at hes
        exact ((ih hes).cons v').trans (.swap ..)
  exact hentries t.entries h

/-- The results among values, with one more value. -/
theorem Value.results_insert {values : Table Value} {name : String} (v : Value)
    (h : values.get? name = none) :
    (values.values.filterMap temp? ++ v.temp?.toList).Perm
      ((values.insert name v).values.filterMap temp?) := by
  have hvalues := (Table.values_insert v h).filterMap temp?
  refine List.perm_append_comm.trans (List.Perm.trans ?_ hvalues.symm)
  cases hv : v.temp? <;> simp [hv]

namespace Surroundings

variable {s : Surroundings} {sub : LowerChain}

/-- Lowering gave a forest, and its roots have the given numbers. -/
def Rooted (base : Nat) (out : Emitted) (numbers : List Nat) : Prop :=
  ∃ roots, Forest base out.steps roots ∧ (roots.map Step.temp).Perm numbers

/-- Surroundings that statements of a program have. -/
structure Regular (s : Surroundings) : Prop where
  ops : s.checker.registry.ops.Built
  vars : s.vars.Sound

/-- Chains that are arguments are lowered to trees, under the guards around them. -/
structure Grows (s : Surroundings) (sub : LowerChain) : Prop where
  once : ∀ base ch, Once s.guards (sub base ch).1.steps
  rooted : ∀ base ch, (∀ c ∈ ch.calls, c.Sound) → Rooted base (sub base ch).1 (sub base ch).2.toList

theorem Rooted.nil (base : Nat) {out : Emitted} (h : out.steps = []) : Rooted base out [] :=
  ⟨[], by rw [h]; exact .nil, .nil⟩

/-- Two parts one behind the other have the roots of both. -/
theorem Rooted.append {base : Nat} {out out' : Emitted} {numbers numbers' : List Nat}
    (h : Rooted base out numbers) (h' : Rooted (base + out.steps.length) out' numbers') :
    Rooted base (out ++ out') (numbers ++ numbers') := by
  obtain ⟨roots, hforest, hnumbers⟩ := h
  obtain ⟨roots', hforest', hnumbers'⟩ := h'
  refine ⟨roots ++ roots', hforest.append hforest', ?_⟩
  rw [List.map_append]
  exact hnumbers.append hnumbers'

/-- An argument that is a chain is lowered to a tree, and its value is the root. -/
theorem rooted_argument (hs : s.Regular) (hsub : s.Grows sub) (base : Nat) (a : ArgSpec) {e : Expr}
    (he : e.Sound) :
    Rooted base (s.argument sub base a e).1
      ((s.argument sub base a e).2.bind Value.temp?).toList := by
  have hsound := hs.vars.deref he
  have hplain : ∀ r : Noted (Option Value), (∀ v, r.1 = some v → v.temp? = none) →
      Rooted base (notes r.2) (r.1.bind Value.temp?).toList := by
    intro r hr
    have hnone : r.1.bind Value.temp? = none := by
      cases hv : r.1 with
      | none => rfl
      | some v => exact hr v hv
    rw [hnone]
    exact .nil base rfl
  have hchain : ∀ ch : Chain, (∀ c ∈ ch.calls, c.Sound) →
      Rooted base (sub base ch).1
          (((sub base ch).2.map fun t => Value.ref ⟨.temp, t⟩).bind Value.temp?).toList := by
    intro ch hch
    have hrooted := hsub.rooted base ch hch
    cases hlast : (sub base ch).2 <;> rw [hlast] at hrooted <;> exact hrooted
  unfold argument
  generalize s.vars.deref e = e at hsound
  cases a.type with
  | surface =>
      unfold surfaceArg
      dsimp only
      split
      · rename_i x pos
        have hkind : x.kind ≠ .temp := ((Expr.sound_iff _).1 hsound).1.kind
        exact hplain (some (.ref x), []) fun v hv => Option.some.inj hv ▸ Value.temp?_ref hkind
      · split
        · rename_i x hx
          have hkind := Surface.kind_of_ofName? hx
          exact hplain (some (.ref x), []) fun v hv => Option.some.inj hv ▸ Value.temp?_ref hkind
        · exact .nil base rfl
      · exact hchain _ (by simpa using hsound)
      · exact hchain _ ((Expr.sound_chain _).1 hsound).calls
      · exact .nil base rfl
      · exact .nil base rfl
  | float | int => exact hplain _ fun v hv => (Checker.numeric_numberArg hv).temp?_eq
  | boolean => exact hplain _ fun v hv => (Checker.numeric_boolArg hv).temp?_eq
  | string =>
      dsimp only
      split <;> exact .nil base rfl
  | color | vec3 | vec4 => exact hplain _ fun v hv => Checker.temp?_vectorArg hv
  | member =>
      exact hplain _ fun v hv =>
        Value.Numeric.temp?_eq (Checker.numeric_memberArg hv : v.Numeric none none)

/-- The steps so far are a forest, and its roots are the results among the values. -/
def Arguments.Rooted (base : Nat) (r : Arguments) : Prop :=
  Surroundings.Rooted base r.out (r.values.values.filterMap Value.temp?)

/-- Taking one argument. -/
theorem rooted_take (hs : s.Regular) (hsub : s.Grows sub) {base : Nat} {given : Table Expr}
    (hgiven : Bindings.Sound given) {r : Arguments} {a : ArgSpec} (h : r.Rooted base)
    (hname : r.values.get? a.name = none) :
    (Arguments.take s sub base given r a).Rooted base ∧
      ∀ name, name ≠ a.name → r.values.get? name = none →
        (Arguments.take s sub base given r a).values.get? name = none := by
  have hwritten : ∀ e out v, given.get? a.name = some e →
      s.argument sub (base + r.out.steps.length) a e = (out, v) →
      Surroundings.Rooted (base + r.out.steps.length) out (v.bind Value.temp?).toList := by
    intro e out v hget harg
    have he := hgiven e (Table.mem_values_iff.2 ⟨a.name, hget⟩)
    have hrooted := rooted_argument hs hsub (base + r.out.steps.length) a he
    rwa [harg] at hrooted
  rcases take_cases s sub base given r a with ⟨e, out, v, hget, harg, htake⟩ | ⟨out, hout, htake⟩
  · obtain ⟨roots, hforest, hnumbers⟩ :=
      Surroundings.Rooted.append h (hwritten e out (some v) hget harg)
    rw [htake]
    exact ⟨⟨roots, hforest, hnumbers.trans (Value.results_insert v hname)⟩,
      fun name hne hnone => by simp [hne, hnone]⟩
  · have hrooted : Surroundings.Rooted (base + r.out.steps.length) out [] := by
      rcases hout with ⟨-, rfl⟩ | ⟨e, hget, harg⟩
      · exact .nil _ rfl
      · exact hwritten e out none hget harg
    obtain ⟨roots, hforest, hnumbers⟩ := Surroundings.Rooted.append h hrooted
    rw [List.append_nil] at hnumbers
    rcases htake with ⟨v, hv, htake⟩ | htake
    · have hresults := Value.results_insert v hname
      rw [Checker.temp?_defaultValue hv, Option.toList_none, List.append_nil] at hresults
      rw [htake]
      exact ⟨⟨roots, hforest, hnumbers.trans hresults⟩, fun name hne hnone => by simp [hne, hnone]⟩
    · rw [htake]
      exact ⟨⟨roots, hforest, hnumbers⟩, fun _ _ hnone => hnone⟩

/-- Taking all arguments. -/
theorem rooted_foldl_take (hs : s.Regular) (hsub : s.Grows sub) {base : Nat} {given : Table Expr}
    (hgiven : Bindings.Sound given) (as : List ArgSpec) (hnames : (as.map (·.name)).Nodup)
    (r : Arguments) (h : r.Rooted base) (hnone : ∀ a ∈ as, r.values.get? a.name = none) :
    (as.foldl (Arguments.take s sub base given) r).Rooted base := by
  induction as generalizing r with
  | nil => exact h
  | cons a as ih =>
      obtain ⟨hname, hnames⟩ := List.nodup_cons.1 hnames
      obtain ⟨hfirst, hothers⟩ := rooted_take hs hsub hgiven h (hnone a List.mem_cons_self)
      refine ih hnames _ hfirst fun b hb => hothers b.name ?_ (hnone b (List.mem_cons_of_mem a hb))
      intro heq
      exact hname (List.mem_map.2 ⟨b, hb, heq⟩)

/-- The arguments of a call are rooted at the step they are for. -/
theorem rooted_arguments (hs : s.Regular) (hsub : s.Grows sub) (base : Nat) {c : Call}
    (hc : c.Sound) {spec : OpSpec} (hspec : resolve? s.checker.registry c = some spec) :
    (s.arguments sub base c spec).Rooted base := by
  obtain ⟨spec', hlookup, hargs⟩ := lookup_of_resolve? hspec
  have hnames : (spec.args.map (·.name)).Nodup := hargs ▸ hs.ops.nodup hlookup
  exact rooted_foldl_take hs hsub (sound_given hc spec) spec.args hnames _ (.nil base rfl) (by simp)

/-! ## chains -/

/-- A chain so far is a tree whose root is its last step and is written nowhere. -/
structure Progress.Open (guards : List Dynamic) (base : Nat) (p : Progress) : Prop where
  once : Once guards p.out.steps
  forest : ∃ roots, Forest base p.out.steps roots ∧ roots.map Step.temp = p.last.toList ∧
    ∀ t ∈ roots, t.out = none

/-- The step of a call takes the last step of its chain and the chains among its arguments. -/
theorem open_call (hs : s.Regular) (hsub : s.Grows sub) {base : Nat} {p : Progress}
    (h : p.Open s.guards base) {c : Call} (hc : c.Sound) {spec : OpSpec}
    (hspec : resolve? s.checker.registry c = some spec) (starter : Option String) (begun : Bool) :
    Progress.Open s.guards base
      { out := p.out ++ (s.call sub (base + p.out.steps.length) c spec p.last).1,
        last := some (s.call sub (base + p.out.steps.length) c spec p.last).2, starter,
        begun } := by
  have honce := once_call hsub.once (base + p.out.steps.length) c spec p.last
  obtain ⟨before, hbefore, hlast, hout⟩ := h.forest
  obtain ⟨roots, hforest, hnumbers⟩ := rooted_arguments hs hsub (base + p.out.steps.length) hc hspec
  rw [call_eq] at honce ⊢
  generalize hr : s.arguments sub (base + p.out.steps.length) c spec = r at *
  generalize hst : s.stepOf sub (base + p.out.steps.length) c spec p.last = st at *
  have huses : st.uses = p.last.toList ++ r.values.values.filterMap Value.temp? := by
    rw [← hst, ← hr]; rfl
  have hsource : st.source = p.last := by rw [← hst]; rfl
  have htemp : st.temp = base + p.out.steps.length + r.out.steps.length := by rw [← hst, ← hr]; rfl
  refine ⟨h.once.append honce, [st], ?_, rfl, ?_⟩
  · change Forest base (p.out.steps ++ (r.out.steps ++ [st])) ([] ++ [st])
    have hboth : Forest base (p.out.steps ++ r.out.steps) ([] ++ (before ++ roots)) :=
      hbefore.append hforest
    rw [← List.append_assoc]
    refine .snoc hboth ?_ ?_ ?_ ?_
    · rw [htemp, List.length_append, Nat.add_assoc]
    · rw [huses, List.map_append, hlast]
      exact hnumbers.symm.append_left _
    · intro t ht
      have hlevel : t.guards = s.guards ∧ t.repetition = {} := by
        rcases List.mem_append.1 ht with ht | ht
        · exact h.once t (hbefore.mem_of_root ht)
        · exact honce t (List.mem_append_left _ (hforest.mem_of_root ht))
      have hown := honce st (List.mem_append_right _ (List.mem_singleton.2 rfl))
      rw [hlevel.1, hlevel.2, hown.1, hown.2]
      exact ⟨rfl, rfl⟩
    · intro t ht hsame
      rcases List.mem_append.1 ht with ht | ht
      · exact hout t ht
      · -- an argument is no step from before
        have hmem : t.temp ∈ before.map Step.temp := by rw [hlast, ← hsource, hsame]; simp
        obtain ⟨u, hu, heq⟩ := List.mem_map.1 hmem
        have hold := (hbefore.temp_bounds (hbefore.mem_of_root hu)).2
        have hnew := (hforest.temp_bounds (hforest.mem_of_root ht)).1
        omega
  · rw [← hst]
    simp [stepOf]

/-- One more call keeps a chain open at its last step. -/
theorem open_next (hs : s.Regular) (hsub : s.Grows sub) {base : Nat} {p : Progress}
    (h : p.Open s.guards base) {c : Call} (hc : c.Sound) :
    (Progress.next s sub base p c).Open s.guards base := by
  have hnotes : ∀ (ds : List Diagnostic) (starter : Option String) (begun : Bool),
      Progress.Open s.guards base
      { out := p.out ++ notes ds, last := p.last, starter, begun } := by
    intro ds starter begun
    have hsteps : (p.out ++ notes ds).steps = p.out.steps := List.append_nil _
    exact ⟨by rw [hsteps]; exact h.once, by rw [hsteps]; exact h.forest⟩
  unfold Progress.next
  dsimp only
  split
  · exact hnotes ..
  · rename_i spec hspec
    split
    · exact hnotes ..
    · split
      · exact hnotes ..
      · exact open_call hs hsub h hc hspec ..

/-- A chain is lowered to a tree, and its root is its last step. -/
theorem rooted_chainWith (hs : s.Regular) (hsub : s.Grows sub) (isArgument : Bool) (base : Nat)
    {ch : Chain} (hch : ∀ c ∈ ch.calls, c.Sound) :
    Rooted base (s.chainWith sub isArgument base ch).1
      (s.chainWith sub isArgument base ch).2.toList := by
  have hfold : ∀ cs : List Call, (∀ c ∈ cs, c.Sound) → ∀ p : Progress, p.Open s.guards base →
      (cs.foldl (Progress.next s sub base) p).Open s.guards base := by
    intro cs
    induction cs with
    | nil => exact fun _ p h => h
    | cons c cs ih =>
        intro hcs p h
        exact ih (fun x hx => hcs x (List.mem_cons_of_mem c hx)) _
          (open_next hs hsub h (hcs c List.mem_cons_self))
  have hstart : Progress.Open s.guards base { out := notes (s.vars.expandChain ch).2 } :=
    ⟨by simp [Once], [], .nil, rfl, by simp⟩
  have hcalls := hfold (s.vars.expandChain ch).1 (fun c => hs.vars.expandChain hch) _ hstart
  unfold chainWith
  dsimp only
  generalize (s.vars.expandChain ch).1.foldl (Progress.next s sub base) _ = p at hcalls
  obtain ⟨roots, hforest, hlast, -⟩ := hcalls.forest
  have hplain : Rooted base p.out p.last.toList := ⟨roots, hforest, .of_eq hlast⟩
  have hnotes : ∀ ds, Rooted base (p.out ++ notes ds) p.last.toList := by
    intro ds
    have hsteps : (p.out ++ notes ds).steps = p.out.steps := List.append_nil _
    exact ⟨roots, by rw [hsteps]; exact hforest, .of_eq hlast⟩
  cases hl : p.last with
  | none =>
      rw [hl] at hplain
      exact hplain
  | some last =>
      rw [hl] at hplain hnotes hlast
      dsimp only
      split
      · split
        · rename_i o ds _
          obtain ⟨st, rfl, rfl⟩ := List.map_eq_singleton_iff.1 hlast
          refine ⟨[{ st with out := some o }], ?_, .refl _⟩
          change Forest base (setOut st.temp o p.out.steps ++ []) _
          rw [List.append_nil]
          exact hforest.setOut o
        · exact hnotes _
      · split
        · split
          · exact hplain
          · exact hnotes _
        · exact hplain

/-- A nested chain grows by one root at most, at every depth. -/
theorem grows_subchain (hs : s.Regular) (depth : Nat) : s.Grows (s.subchain depth) := by
  refine ⟨s.once_subchain depth, ?_⟩
  induction depth with
  | zero => exact fun base ch _ => .nil base rfl
  | succ depth ih =>
      exact fun base ch hch => rooted_chainWith hs ⟨s.once_subchain depth, ih⟩ true base hch

/-- A chain statement comes to a forest. -/
theorem forest_chain (hs : s.Regular) (base : Nat) {ch : Chain} (hch : (Expr.chain ch).Sound) :
    ∃ roots, Forest base (s.chain base ch).steps roots := by
  obtain ⟨roots, hforest, -⟩ :=
    rooted_chainWith hs (grows_subchain hs _) false base ((Expr.sound_chain ch).1 hch).calls
  exact ⟨roots, hforest⟩

end Surroundings

/-! ## plans -/

/-- A step of a loop's body differs from what it was in how often it runs, and alike steps
do so alike. -/
theorem Forest.repeated {base : Nat} {steps roots : List Step} (h : Forest base steps roots)
    (n : Nat) (factor : Option Dynamic) :
    Forest base (steps.map fun st => (Surroundings.repeated n factor st).1)
      (roots.map fun st => (Surroundings.repeated n factor st).1) := by
  have hsame : ∀ st, ∃ r, (Surroundings.repeated n factor st).1 = { st with repetition := r } := by
    intro st
    unfold Surroundings.repeated
    dsimp only
    split <;> exact ⟨_, rfl⟩
  refine h.map ?_ ?_ ?_ ?_ ?_
  · intro st
    obtain ⟨r, hr⟩ := hsame st
    rw [hr]
  · intro st
    obtain ⟨r, hr⟩ := hsame st
    rw [hr]
    rfl
  · intro st
    obtain ⟨r, hr⟩ := hsame st
    rw [hr]
  · intro st
    obtain ⟨r, hr⟩ := hsame st
    rw [hr]
  · intro st t hguards hrepetition
    unfold Surroundings.repeated
    dsimp only
    rw [hrepetition]
    split <;> exact ⟨hguards, rfl⟩

/-- Lowering keeps forests. -/
theorem kept_forest {k : Checker} (hk : k.registry.ops.Built) :
    Kept k fun base steps => ∃ roots, Forest base steps roots where
  nil _ := ⟨[], .nil⟩
  append := by
    rintro base as bs ⟨roots, hforest⟩ ⟨roots', hforest'⟩
    exact ⟨roots ++ roots', hforest.append hforest'⟩
  repeated := by
    rintro base as n factor - ⟨roots, hforest⟩
    exact ⟨_, hforest.repeated (n + 1) factor⟩
  chain s base ch hs hch := by
    obtain rfl := hs.checker
    exact Surroundings.forest_chain ⟨hk, hs.vars⟩ base hch

/-- Steps that take results of each other as a forest does, each after those it takes. -/
structure DependencyForest (steps : List Step) : Prop where
  temp : ∀ (i : Nat) (s : Step), steps[i]? = some s → s.temp = i
  source_lt : ∀ s ∈ steps, ∀ n, s.source = some n → n < s.temp
  ref_lt : ∀ s ∈ steps, ∀ n, Value.ref ⟨.temp, n⟩ ∈ s.args.values → n < s.temp
  /-- No result is taken twice, be it as an input or as an argument. -/
  once : ∀ n, (steps.flatMap Step.uses).count n ≤ 1
  /-- A step that is written somewhere is no input. -/
  unwritten : ∀ s ∈ steps, ∀ t ∈ steps, s.source = some t.temp → t.out = none
  /-- What is needed for a result that is not taken is a stretch of steps that ends with it. -/
  block : ∀ i < steps.length, (∀ s ∈ steps, i ∉ s.uses) →
    ∃ first ≤ i, ∀ n, Reaches steps i n ↔ first ≤ n ∧ n ≤ i

/-- A step uses its source and the temporaries among its arguments. -/
theorem Step.mem_uses {s : Step} {n : Nat} :
    n ∈ s.uses ↔ s.source = some n ∨ Value.ref ⟨.temp, n⟩ ∈ s.args.values := by
  have hresult : ∀ v : Value, v.temp? = some n ↔ v = .ref ⟨.temp, n⟩ := by
    intro v
    constructor
    · intro hv
      unfold Value.temp? at hv
      split at hv
      · rw [Option.some.inj hv]
      · cases hv
    · rintro rfl
      rfl
  simp [uses, refs, List.mem_filterMap, hresult]

/-- The steps of a forest depend on each other as a forest. -/
theorem Forest.dependencyForest {steps roots : List Step} (h : Forest 0 steps roots) :
    DependencyForest steps where
  temp i s hs := by rw [h.temp_of_get? hs, Nat.zero_add]
  source_lt s hs n hn := by
    obtain ⟨t, -, -, hlt, -⟩ := h.linked hs (Step.mem_uses.2 (.inl hn))
    exact hlt
  ref_lt s hs n hn := by
    obtain ⟨t, -, -, hlt, -⟩ := h.linked hs (Step.mem_uses.2 (.inr hn))
    exact hlt
  once n := by
    have hnodup : (steps.flatMap Step.uses).Nodup :=
      (h.taken_or_root.nodup_iff.2 List.nodup_range').of_append_left
    exact List.nodup_iff_count_le_one.1 hnodup n
  unwritten s hs t ht hst := by
    obtain ⟨u, hu, htemp, -, -, -, hout⟩ := h.linked hs (Step.mem_uses.2 (.inl hst))
    rw [← h.eq_of_temp hu ht htemp]
    exact hout hst
  block i hi hfree := by
    have hroot : i ∈ roots.map Step.temp := by
      have hmem : i ∈ steps.flatMap Step.uses ++ roots.map Step.temp :=
        h.taken_or_root.mem_iff.2 (by simpa using hi)
      refine (List.mem_append.1 hmem).resolve_left fun htaken => ?_
      obtain ⟨s, hs, hi⟩ := List.mem_flatMap.1 htaken
      exact hfree s hs hi
    obtain ⟨t, ht, rfl⟩ := List.mem_map.1 hroot
    obtain ⟨ts, rest, rfl⟩ := List.append_of_mem ht
    have hblock := h.block ts t rest rfl
    exact ⟨firstAfter 0 ts, ((hblock t.temp).1 .refl).1, hblock⟩

variable {registry : Registry} {options options' : Options} {source : Bytes} {program : Program}
    {p : Plan}

/-- The plan of a program is a forest in the order of its dependencies. -/
theorem plan_dependencyForest (hr : registry.ops.Built)
    (hparse : Program.parse options source = .ok program)
    (hplan : program.plan registry options' = .ok p) : DependencyForest p.steps := by
  obtain ⟨roots, hforest⟩ := (kept_forest hr).plan hparse hplan
  exact hforest.dependencyForest

/-- A step stands under the guards and loops of the steps whose results it takes. -/
theorem plan_linked_alike (hr : registry.ops.Built)
    (hparse : Program.parse options source = .ok program)
    (hplan : program.plan registry options' = .ok p) :
    ∀ s ∈ p.steps, ∀ n, s.source = some n ∨ Value.ref ⟨.temp, n⟩ ∈ s.args.values →
      ∃ t, p.steps[n]? = some t ∧ t.guards = s.guards ∧ t.repetition = s.repetition := by
  obtain ⟨roots, hforest⟩ := (kept_forest hr).plan hparse hplan
  intro s hs n hn
  obtain ⟨t, ht, rfl, -, hguards, hrepetition, -⟩ := hforest.linked hs (Step.mem_uses.2 hn)
  obtain ⟨i, hi⟩ := List.mem_iff_getElem?.1 ht
  have htemp := hforest.temp_of_get? hi
  rw [Nat.zero_add] at htemp
  exact ⟨t, htemp ▸ hi, hguards, hrepetition⟩

/-! ## a mixer -/

/-- An operation that begins chains, and one that mixes its input with another chain. -/
def mixer : Registry where
  ops := {
    specs := .ofList [("lamp", { name := "lamp" }),
      ("mix", { name := "mix", args := [{ name := "tex", type := .surface }] })]
    starters := ["lamp"] }

theorem mixer_built : mixer.ops.Built := by
  have hlamp : ({} : Operations).register "lamp" [] = .ok _ := rfl
  have hmix : Operations.register { specs := .ofList [("lamp", { name := "lamp" })] } "mix"
      [{ name := "tex", type := .surface }] = .ok _ := rfl
  exact .markStarters (.register (.register .empty hlamp) hmix) ["lamp"]

/-- Two chains, the first under a condition in a loop and with a chain for an argument. -/
def mixerSource : Bytes :=
  .ofString "search s loop time \x7b if frame \x7b lamp().mix(tex: lamp()) \x7d \x7d lamp().out(o1)"

def mixerTokens : List Token :=
  let token (col : Nat) (kind : TokenKind) (word : String) : Token :=
    ⟨kind, Bytes.ofString word, ⟨1, col⟩⟩
  [token 1 .keyword "search", token 8 .identifier "s", token 10 .keyword "loop",
    token 15 .identifier "time", token 20 .lbrace "\x7b", token 22 .keyword "if",
    token 25 .identifier "frame", token 31 .lbrace "\x7b", token 33 .identifier "lamp",
    token 37 .lparen "(", token 38 .rparen ")", token 39 .dot ".", token 40 .identifier "mix",
    token 43 .lparen "(", token 44 .identifier "tex", token 47 .colon ":",
    token 49 .identifier "lamp", token 53 .lparen "(", token 54 .rparen ")", token 55 .rparen ")",
    token 57 .rbrace "\x7d", token 59 .rbrace "\x7d", token 61 .identifier "lamp",
    token 65 .lparen "(", token 66 .rparen ")", token 67 .dot ".", token 68 .identifier "out",
    token 71 .lparen "(", token 72 .surface "o1", token 74 .rparen ")", token 75 .endOfInput ""]

def mixerProgram : Program where
  search := ["s"]
  statements :=
    let ns := { resolved := true, search := ["s"] }
    let lamp (col : Nat) : Call := { name := "lamp", ns, pos := ⟨1, col⟩ }
    let mix : Call :=
      { name := "mix", kwargs := [⟨"tex", .call (lamp 49), ⟨1, 44⟩⟩], ns, pos := ⟨1, 40⟩ }
    [.repeated (some (.ident "time" ⟨1, 15⟩))
      [.choose [⟨.ident "frame" ⟨1, 25⟩, [.run { calls := [lamp 33, mix], pos := ⟨1, 33⟩ } ⟨1, 33⟩],
        ⟨1, 22⟩⟩] none
        ⟨1, 22⟩] ⟨1, 10⟩,
      .run { calls := [lamp 61], out := some (.surface ⟨.output, 1⟩ ⟨1, 72⟩), pos := ⟨1, 61⟩ }
        ⟨1, 61⟩]

def mixerPlan : Plan where
  search := ["s"]
  steps :=
    let ns := { resolved := true, search := ["s"] }
    let guards := [Dynamic.ofState "frame"]
    let repetition := { factor := some (Dynamic.ofState "time") }
    [{ op := "lamp", temp := 0, ns, guards, repetition, pos := ⟨1, 33⟩ },
      { op := "lamp", temp := 1, ns, guards, repetition, pos := ⟨1, 49⟩ },
      { op := "mix", args := .ofList [("tex", .ref ⟨.temp, 1⟩)], explicit := ["tex"],
        source := some 0, temp := 2, ns, guards, repetition, pos := ⟨1, 40⟩ },
      { op := "lamp", temp := 3, ns, out := some ⟨.output, 1⟩, pos := ⟨1, 61⟩ }]
  diagnostics := [{ problem := .chainWithoutOut "lamp", pos := ⟨1, 33⟩ }]

theorem mixer_parse : Program.parse {} mixerSource = .ok mixerProgram := by
  have hscan : Token.scan mixerSource = .ok mixerTokens := by
    rw [show mixerSource = _ from Bytes.ofString_ofList _]
    decide +kernel
  have htokens : Program.ofTokens {} mixerTokens = .ok mixerProgram := by cbv
  have hboth : (Token.scan mixerSource >>= Program.ofTokens {}) = .ok mixerProgram := by
    rw [hscan]
    exact htokens
  rw [Program.parse, hboth]

theorem mixer_plan : mixerProgram.plan mixer {} = .ok mixerPlan := rfl

theorem mixer_plan_forest : mixer.ops.Built ∧ Program.parse {} mixerSource = .ok mixerProgram ∧
    mixerProgram.plan mixer {} = .ok mixerPlan ∧ DependencyForest mixerPlan.steps :=
  ⟨mixer_built, mixer_parse, mixer_plan, plan_dependencyForest mixer_built mixer_parse mixer_plan⟩

/-- The third step takes the first as its input and the second as an argument. -/
theorem mixer_steps_alike : mixer.ops.Built ∧ Program.parse {} mixerSource = .ok mixerProgram ∧
    mixerProgram.plan mixer {} = .ok mixerPlan ∧ mixerPlan.steps.map Step.uses =
      [[], [], [0, 1], []] ∧
    ∀ s ∈ mixerPlan.steps, ∀ n, s.source = some n ∨ Value.ref ⟨.temp, n⟩ ∈ s.args.values →
      ∃ t, mixerPlan.steps[n]? = some t ∧ t.guards = s.guards ∧ t.repetition = s.repetition :=
  ⟨mixer_built, mixer_parse, mixer_plan, rfl, plan_linked_alike mixer_built mixer_parse mixer_plan⟩

end EffectChain
