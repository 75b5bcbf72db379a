import EffectChain.Proofs.Plan.Outs

/-!
# EffectChain.Proofs.Plan.Aliases

Chains that start with a variable for an operation, as a base or as a call.

Both spellings come to the same calls but for the first one, which has no namespaces when the
variable is the base (`Surroundings.calls_basedOn_ident`, `Surroundings.calls_called`).

How chains among arguments are lowered matters for the chains that are nested in a chain only, so a
chain that is lowered to the end is lowered alike to every greater depth
(`Surroundings.subchain_deeper`, `Surroundings.chain_deeper`).

* `alias_alike_iff` — they come to the same steps exactly if the operation is the same without the
  namespaces; a variable for a qualified name is no base at all.
-/

namespace EffectChain

open Emitted

namespace Surroundings

/-! ## the depth of lowering -/

section depth

variable {s : Surroundings} {sub sub' : LowerChain}

/-- An argument depends on how its own nested chain is lowered. -/
theorem argument_congr {a : ArgSpec} {e : Expr}
    (h : a.type = .surface → ∀ ch, (s.vars.deref e).asChain? = some ch → ∀ base,
      sub base ch = sub' base ch)
    (base : Nat) : s.argument sub base a e = s.argument sub' base a e := by
  unfold argument
  cases ht : a.type with
  | surface =>
      have hsame := h ht
      generalize s.vars.deref e = e at hsame
      cases e with
      | call c => simp only [surfaceArg, hsame _ rfl base]
      | chain ch => simp only [surfaceArg, hsame _ rfl base]
      | _ => rfl
  | _ => rfl

/-- The arguments of a call depend on how their own nested chains are lowered. -/
theorem arguments_congr {c : Call} {spec : OpSpec}
    (h : ∀ a ∈ spec.args, a.type = .surface → ∀ e, (s.given c spec).get? a.name = some e →
      ∀ ch, (s.vars.deref e).asChain? = some ch → ∀ base, sub base ch = sub' base ch)
    (base : Nat) : s.arguments sub base c spec = s.arguments sub' base c spec := by
  unfold arguments
  refine List.foldl_ext _ _ _ fun r a ha => ?_
  unfold Arguments.take
  dsimp only
  cases hget : (s.given c spec).get? a.name with
  | none => rfl
  | some e =>
      dsimp only
      rw [argument_congr fun htype => h a ha htype e hget]

/-- The calls of a chain depend on how their own nested chains are lowered. -/
theorem foldl_next_congr (base : Nat) {cs : List Call} {p : Progress}
    (h : ∀ call ∈ s.taken p.last.isSome cs, ∀ base,
      s.arguments sub base call.1 call.2 = s.arguments sub' base call.1 call.2) :
    cs.foldl (Progress.next s sub base) p = cs.foldl (Progress.next s sub' base) p := by
  induction cs generalizing p with
  | nil => rfl
  | cons c cs ih =>
      have hnext : Progress.next s sub base p c = Progress.next s sub' base p c := by
        have hcall : ∀ spec, (c, spec) ∈ s.taken p.last.isSome (c :: cs) → ∀ base,
            s.call sub base c spec p.last = s.call sub' base c spec p.last := by
          intro spec hspec base
          rw [call_eq, call_eq]
          simp only [stepOf, h _ hspec]
        unfold Progress.next
        cases hr : resolve? s.checker.registry c with
        | none => simp only [hr]
        | some spec =>
            have hnone : p.last.isNone = !p.last.isSome := by cases p.last <;> rfl
            simp only [taken, hr, hnone] at hcall ⊢
            split
            · rfl
            · next hinput =>
                split
                · rfl
                · next hmiddle =>
                    rw [if_neg hinput, if_neg hmiddle] at hcall
                    rw [hcall spec List.mem_cons_self]
      rw [List.foldl_cons, List.foldl_cons, hnext]
      refine ih fun call hcall => h call ?_
      rcases next_cases s sub' base p c with ⟨spec, htaken, -, hlast⟩ | ⟨htaken, hlast, -⟩
      · rw [htaken]
        rw [hlast] at hcall
        exact List.mem_cons_of_mem _ hcall
      · rw [htaken, ← hlast]
        exact hcall

/-- How chains among arguments are lowered matters for those that are nested in the chain. -/
theorem chainWith_congr {ch : Chain}
    (h : ∀ inner, s.Nests ch inner → ∀ base, sub base inner = sub' base inner) (isArgument : Bool)
    (base : Nat) : s.chainWith sub isArgument base ch = s.chainWith sub' isArgument base ch := by
  unfold chainWith
  dsimp only
  rw [foldl_next_congr base fun call hcall => arguments_congr fun a ha htype e he inner hinner =>
    h inner ⟨call, hcall, a, ha, htype, e, he, hinner⟩]

/-- A chain that is not nested to a depth is lowered alike to every greater one. -/
theorem subchain_deeper {ch : Chain} {depth depth' : Nat} (hends : ¬ s.Deep depth ch)
    (h : depth ≤ depth') (base : Nat) : s.subchain depth base ch = s.subchain depth' base ch := by
  induction depth generalizing depth' ch base with
  | zero => exact absurd trivial hends
  | succ depth ih =>
      cases depth' with
      | zero => omega
      | succ depth' =>
          exact chainWith_congr
            (fun inner hnests => ih (fun hdeep => hends ⟨inner, hnests, hdeep⟩) (by omega))
            true base

/-- So is a chain statement that is not circular. -/
theorem chain_deeper {base : Nat} {ch : Chain} (hends : (s.chain base ch).circular = false)
    {depth : Nat} (h : depthBound s.vars ch ≤ depth) :
    s.chain base ch = (s.chainWith (s.subchain depth) false base ch).1 := by
  have hdeep : ¬ s.Deep (depthBound s.vars ch + 1) ch := by
    rw [← s.exhausted_iff _ false base]
    exact Bool.not_eq_true _ ▸ hends
  have hsame : s.chainWith (s.subchain (depthBound s.vars ch)) false base ch =
      s.chainWith (s.subchain depth) false base ch :=
    chainWith_congr (fun inner hnests =>
      subchain_deeper (fun hinner => hdeep ⟨inner, hnests, hinner⟩) h) false base
  rw [chain, hsame]

end depth

end Surroundings

/-- A step whatever the namespaces its call is looked up in. -/
def Step.unplaced (st : Step) : Step := { st with ns := {} }

namespace Surroundings

variable {s : Surroundings} {sub : LowerChain}

/-! ## steps but for their namespaces -/

/-- The same steps but for their namespaces, and the same last one. -/
def Alike (a b : Emitted × Option Nat) : Prop :=
  a.1.steps.map Step.unplaced = b.1.steps.map Step.unplaced ∧ a.2 = b.2

/-- Two chains have come to the same steps so far. -/
def Progress.Alike (p q : Progress) : Prop := Surroundings.Alike (p.out, p.last) (q.out, q.last)

theorem Progress.alike_begin (ds ds' : List Diagnostic) :
    Progress.Alike { out := notes ds } { out := notes ds' } := ⟨rfl, rfl⟩

/-- Alike chains stay alike with one more call. -/
theorem Progress.Alike.next {p q : Progress} (h : p.Alike q) (base : Nat) (c : Call) :
    (Progress.next s sub base p c).Alike (Progress.next s sub base q c) := by
  obtain ⟨hsteps, hlast⟩ := h
  have hlength : p.out.steps.length = q.out.steps.length := by
    simpa using congrArg List.length hsteps
  dsimp only at hsteps hlast
  rcases next_cases s sub base p c with ⟨spec, htaken, hout, hnext⟩ | ⟨htaken, hnext, ds, hout⟩ <;>
    rcases next_cases s sub base q c with ⟨spec', htaken', hout', hnext'⟩
      | ⟨htaken', hnext', ds', hout'⟩
  · have hspec :=
      (htaken []).symm.trans ((congrArg (fun b => s.taken b.isSome [c]) hlast).trans (htaken' []))
    obtain rfl : spec = spec' := by simpa [taken] using hspec
    rw [hlength, hlast] at hout hnext
    refine ⟨?_, hnext.trans hnext'.symm⟩
    rw [hout, hout']
    simp [hsteps]
  · have hnone :=
      (htaken []).symm.trans ((congrArg (fun b => s.taken b.isSome [c]) hlast).trans (htaken' []))
    simp [taken] at hnone
  · have hnone :=
      (htaken []).symm.trans ((congrArg (fun b => s.taken b.isSome [c]) hlast).trans (htaken' []))
    simp [taken] at hnone
  · refine ⟨?_, hnext.trans (hlast.trans hnext'.symm)⟩
    rw [hout, hout']
    simpa using hsteps

/-- Alike chains stay alike with more calls. -/
theorem Progress.Alike.foldl {p q : Progress} (h : p.Alike q) (base : Nat) (cs : List Call) :
    (cs.foldl (Progress.next s sub base) p).Alike (cs.foldl (Progress.next s sub base) q) := by
  induction cs generalizing p q with
  | nil => exact h
  | cons c cs ih => exact ih (h.next base c)

/-- Setting a target does not look at places. -/
theorem map_unplaced_setOut (temp : Nat) (o : Surface) (steps : List Step) :
    (setOut temp o steps).map Step.unplaced = setOut temp o (steps.map Step.unplaced) := by
  simp only [setOut, List.map_map]
  refine List.map_congr_left fun st _ => ?_
  by_cases h : st.temp = temp <;> simp [Step.unplaced, h]

/-- Chains whose calls are alike are alike. -/
theorem Alike.chainWith {ch ch' : Chain} (hout : ch.out = ch'.out) (base : Nat)
    (h : (s.calls sub base ch).Alike (s.calls sub base ch')) (isArgument : Bool) :
    Alike (s.chainWith sub isArgument base ch) (s.chainWith sub isArgument base ch') := by
  obtain ⟨hsteps, hlast⟩ := h
  obtain ⟨hsecond, hfirst⟩ := s.steps_chainWith sub isArgument base ch
  obtain ⟨hsecond', hfirst'⟩ := s.steps_chainWith sub isArgument base ch'
  refine ⟨?_, hsecond.trans (hlast.trans hsecond'.symm)⟩
  dsimp only at hsteps hlast
  rw [hfirst, hfirst', hlast, hout]
  split
  · rw [map_unplaced_setOut, map_unplaced_setOut, hsteps]
  · exact hsteps

/-- Alike chains have alike calls. -/
theorem Alike.of_chainWith {ch ch' : Chain} {base : Nat} {isArgument : Bool}
    (h : Alike (s.chainWith sub isArgument base ch) (s.chainWith sub isArgument base ch'))
    (hout : ch.out = none) (hout' : ch'.out = none) :
    (s.calls sub base ch).Alike (s.calls sub base ch') := by
  have hunwritten : ∀ {ch : Chain}, ch.out = none →
      s.chainWith sub isArgument base ch = ((s.chainWith sub isArgument base ch).1,
        (s.calls sub base ch).last) ∧
        (s.chainWith sub isArgument base ch).1.steps = (s.calls sub base ch).out.steps := by
    intro ch hch
    obtain ⟨hlast, hsteps⟩ := s.steps_chainWith sub isArgument base ch
    refine ⟨Prod.ext rfl hlast, ?_⟩
    rw [hsteps, hch]
    cases (s.calls sub base ch).last <;> rfl
  obtain ⟨hsteps, hlast⟩ := h
  rw [(hunwritten hout).2, (hunwritten hout').2] at hsteps
  rw [(hunwritten hout).1, (hunwritten hout').1] at hlast
  exact ⟨hsteps, hlast⟩

/-! ## the first call -/

/-- The operation a call refers to, if it can be the first of a chain. -/
def opening? (r : Registry) (c : Call) : Option OpSpec :=
  (resolve? r c).filter fun spec => r.ops.isStarter spec.name || r.ops.isPassthrough spec.name

/-- The first call that is taken opens the chain. -/
theorem taken_first (s : Surroundings) (c : Call) (cs : List Call) :
    s.taken false (c :: cs) = match opening? s.checker.registry c with
      | some spec => (c, spec) :: s.taken true cs
      | none => s.taken false cs := by
  rw [taken, opening?]
  cases resolve? s.checker.registry c with
  | none => rfl
  | some spec =>
      by_cases hs : s.checker.registry.ops.isStarter spec.name <;>
        by_cases hp : s.checker.registry.ops.isPassthrough spec.name
          <;> simp [Option.filter_some, hs, hp]

/-- A call that can be the first becomes a step, any other becomes none. -/
theorem next_first (s : Surroundings) (sub : LowerChain) (base : Nat) (ds : List Diagnostic)
    (c : Call) :
    match opening? s.checker.registry c with
    | some spec => (Progress.next s sub base { out := notes ds } c).out.steps =
          (s.arguments sub base c spec).out.steps ++ [s.stepOf sub base c spec none] ∧
        (Progress.next s sub base { out := notes ds } c).last =
          some (s.stepOf sub base c spec none).temp
    | none => (Progress.next s sub base { out := notes ds } c).out.steps = [] ∧
        (Progress.next s sub base { out := notes ds } c).last = none := by
  rcases next_cases s sub base { out := notes ds } c with ⟨spec, htaken, hout, hlast⟩
    | ⟨htaken, hlast, ds', hout⟩
  · have hfirst := (s.taken_first c []).symm.trans (htaken [])
    cases hopening : opening? s.checker.registry c with
    | none => simp [hopening, taken] at hfirst
    | some spec' =>
        obtain rfl : spec' = spec := by simpa [hopening, taken] using hfirst
        simpa using ⟨by simp [hout], hlast⟩
  · have hfirst := (s.taken_first c []).symm.trans (htaken [])
    cases hopening : opening? s.checker.registry c with
    | none => exact ⟨by simp [hout], hlast⟩
    | some spec' => simp [hopening, taken] at hfirst

/-- Two operations of a registry with one name are the same. -/
theorem opening?_eq_of_name {r : Registry} {c c' : Call} {spec spec' : OpSpec}
    (h : opening? r c = some spec) (h' : opening? r c' = some spec')
    (hname : spec.name = spec'.name) : spec = spec' := by
  obtain ⟨spec₀, hlookup, rfl⟩ := Option.map_eq_some_iff.1 (Option.filter_eq_some_iff.1 h).1
  obtain ⟨spec₁, hlookup', rfl⟩ := Option.map_eq_some_iff.1 (Option.filter_eq_some_iff.1 h').1
  dsimp only at hname
  rw [hname] at hlookup
  obtain rfl := Option.some.inj (hlookup.symm.trans hlookup')
  rw [hname]

/-- Two calls with the same arguments at the same place begin a chain alike exactly if they are of
the same operation. -/
theorem alike_first (s : Surroundings) (sub : LowerChain) (base : Nat) (ds ds' : List Diagnostic)
    (c : Call) (n : NamespaceRef) :
    (Progress.next s sub base { out := notes ds } c).Alike
        (Progress.next s sub base { out := notes ds' } { c with ns := n }) ↔
      opening? s.checker.registry c = opening? s.checker.registry { c with ns := n } := by
  have hc := s.next_first sub base ds c
  have hn := s.next_first sub base ds' { c with ns := n }
  unfold Progress.Alike Surroundings.Alike
  cases hopening : opening? s.checker.registry c with
  | none =>
      rw [hopening] at hc
      cases hopening' : opening? s.checker.registry { c with ns := n } with
      | none =>
          rw [hopening'] at hn
          simp [hc.1, hc.2, hn.1, hn.2]
      | some spec' =>
          rw [hopening'] at hn
          simp [hc.2, hn.2]
  | some spec =>
      rw [hopening] at hc
      cases hopening' : opening? s.checker.registry { c with ns := n } with
      | none =>
          rw [hopening'] at hn
          simp [hc.2, hn.2]
      | some spec' =>
          rw [hopening'] at hn
          dsimp only at hc hn ⊢
          rw [hc.1, hc.2, hn.1, hn.2]
          constructor
          · rintro ⟨hsteps, -⟩
            have hlast := congrArg (fun steps => steps.getLast?.map Step.op) hsteps
            simp only [List.map_append, List.map_singleton, List.getLast?_append,
              List.getLast?_singleton, Option.some_or, Option.map_some, Option.some.injEq] at hlast
            exact congrArg some (opening?_eq_of_name hopening hopening' hlast)
          · intro h
            obtain rfl := Option.some.inj h
            exact ⟨by simp [Step.unplaced, stepOf, arguments, given], rfl⟩

/-! ## the two spellings -/

/-- A chain whose base is the variable. -/
def basedOn (v : String) (rest : List Call) (out : Option Expr) (pos : Pos) : Chain :=
  { base := some v, calls := rest, out, pos }

/-- A call without arguments, looked up in the namespaces `n`. -/
def callOf (v : String) (n : NamespaceRef) (pos : Pos) : Call := { name := v, ns := n, pos }

/-- A chain whose first call is that of the variable. -/
def called (v : String) (n : NamespaceRef) (rest : List Call) (out : Option Expr) (pos : Pos) :
    Chain :=
  { calls := callOf v n pos :: rest, out, pos }

/-- A call of a qualified name, where a bare name is looked up in the namespaces `n`. -/
def qualified (path : List String) (n : NamespaceRef) (pos : Pos) : Call where
  name := path.getLastD ""
  ns := { name := ".".intercalate path.dropLast, path := path.dropLast, explicit := true,
          source := .qualified, resolved := true, search := n.search }
  pos := pos

variable {v x : String} {path : List String} {n : NamespaceRef} {p pos : Pos}

/-- The calls of a chain whose base is an operation, lowered. -/
theorem calls_basedOn_ident (hv : s.vars.get? v = some (.ident x p)) (base : Nat) (rest : List Call)
    (out : Option Expr) : s.calls sub base (basedOn v rest out pos) =
      (rest.flatMap fun c => (s.vars.expandCall c).1).foldl (Progress.next s sub base)
        (Progress.next s sub base { out := notes (rest.flatMap fun c => (s.vars.expandCall c).2) }
          (callOf x {} pos)) := by
  rw [calls, Bindings.expandChain_eq]
  simp [basedOn, callOf, Bindings.expandBase, hv]

/-- A chain based on a member path starts with the path and goes on with its calls. -/
theorem calls_basedOn_member (hv : s.vars.get? v = some (.member path p)) (base : Nat)
    (rest : List Call) (out : Option Expr) : s.calls sub base (basedOn v rest out pos) =
      (rest.flatMap fun c => (s.vars.expandCall c).1).foldl (Progress.next s sub base)
        { out := notes ({ problem := .cannotStart v, pos } :: rest.flatMap fun c =>
            (s.vars.expandCall c).2) } := by
  rw [calls, Bindings.expandChain_eq]
  simp [basedOn, Bindings.expandBase, hv]

/-- A chain without a base is its expanded calls. -/
theorem calls_unbased (base : Nat) (rest : List Call) (out : Option Expr) :
    s.calls sub base { calls := rest, out, pos } =
      (rest.flatMap fun c => (s.vars.expandCall c).1).foldl (Progress.next s sub base)
        { out := notes (rest.flatMap fun c => (s.vars.expandCall c).2) } := by
  rw [calls, Bindings.expandChain_eq]
  simp [Bindings.expandBase]

/-- The calls of a chain whose first call comes to one call, lowered. -/
theorem calls_called {c : Call} (hc : s.vars.expandCall (callOf v n pos) = ([c], [])) (base : Nat)
    (rest : List Call) (out : Option Expr) : s.calls sub base (called v n rest out pos) =
      (rest.flatMap fun c => (s.vars.expandCall c).1).foldl (Progress.next s sub base)
        (Progress.next s sub base { out := notes (rest.flatMap fun c => (s.vars.expandCall c).2) }
          c) := by
  rw [calls, Bindings.expandChain_eq]
  simp [called, Bindings.expandBase, hc]

theorem expandCall_ident (hn : n.explicit = false) (hv : s.vars.get? v = some (.ident x p)) :
    s.vars.expandCall (callOf v n pos) = ([callOf x n pos], []) := by
  simp [Bindings.expandCall, callOf, hn, hv]

theorem expandCall_member (hn : n.explicit = false) (hv : s.vars.get? v = some (.member path p)) :
    s.vars.expandCall (callOf v n pos) = ([qualified path n pos], []) := by
  simp [Bindings.expandCall, callOf, qualified, hn, hv]

/-- Chains with the same calls after the first one are alike whatever those are exactly if they are
alike so far. -/
theorem alike_iff_first {a b : List Call → Option Expr → Chain} {p q : List Call → Progress}
    {base : Nat} {isArgument : Bool}
    (hout : ∀ rest out, (a rest out).out = out ∧ (b rest out).out = out)
    (ha : ∀ rest out, s.calls sub base (a rest out) =
      (rest.flatMap fun c => (s.vars.expandCall c).1).foldl (Progress.next s sub base) (p rest))
    (hb : ∀ rest out, s.calls sub base (b rest out) =
      (rest.flatMap fun c => (s.vars.expandCall c).1).foldl (Progress.next s sub base) (q rest))
    (hsame : ∀ rest, (p []).Alike (q []) → (p rest).Alike (q rest)) :
    (∀ rest out, Alike (s.chainWith sub isArgument base (a rest out))
      (s.chainWith sub isArgument base (b rest out))) ↔
      (p []).Alike (q []) := by
  constructor
  · intro h
    have hfirst := (h [] none).of_chainWith (hout [] none).1 (hout [] none).2
    rwa [ha, hb] at hfirst
  · intro h rest out
    refine Alike.chainWith ((hout rest out).1.trans (hout rest out).2.symm) base ?_ isArgument
    rw [ha, hb]
    exact (hsame rest h).foldl base _

/-- Chain statements that are alike to every depth come to the same steps. -/
theorem alike_chain {ch ch' : Chain} {base : Nat}
    (h : ∀ sub : LowerChain, Alike (s.chainWith sub false base ch) (s.chainWith sub false base ch'))
    (hends : (s.chain base ch).circular = false) (hends' : (s.chain base ch').circular = false) :
    (s.chain base ch).steps.map Step.unplaced = (s.chain base ch').steps.map Step.unplaced := by
  rw [chain_deeper hends (Nat.le_max_left _ (depthBound s.vars ch')),
    chain_deeper hends' (Nat.le_max_right (depthBound s.vars ch) _)]
  exact (h _).1

end Surroundings

open Surroundings in
/-- A variable for an operation begins a chain alike as its base and as its first call, whatever
follows, exactly if the operation is the same when no namespaces are preferred as in those of the
call.  A variable for a qualified name is no base: it is reported, the chain is that of the calls
after it, and that is alike exactly if the qualified name cannot begin a chain either. -/
theorem alias_alike_iff (s : Surroundings) (v : String) (n : NamespaceRef) (hn : n.explicit = false)
    (pos : Pos) :
    (∀ x p, s.vars.get? v = some (.ident x p) →
      (∀ sub isArgument base,
        (∀ rest out, Alike (s.chainWith sub isArgument base (basedOn v rest out pos))
          (s.chainWith sub isArgument base (called v n rest out pos))) ↔
        opening? s.checker.registry (callOf x {} pos) = opening? s.checker.registry
          (callOf x n pos)) ∧
      (opening? s.checker.registry (callOf x {} pos) = opening? s.checker.registry
        (callOf x n pos) →
        ∀ base rest out, (s.chain base (basedOn v rest out pos)).circular = false →
          (s.chain base (called v n rest out pos)).circular = false →
          (s.chain base (basedOn v rest out pos)).steps.map Step.unplaced =
            (s.chain base (called v n rest out pos)).steps.map Step.unplaced)) ∧
    ∀ path p, s.vars.get? v = some (.member path p) →
      (∀ sub isArgument base rest out,
        { problem := .cannotStart v, pos } ∈
          (s.chainWith sub isArgument base (basedOn v rest out pos)).1.problems ∧
        Alike (s.chainWith sub isArgument base (basedOn v rest out pos))
          (s.chainWith sub isArgument base { calls := rest, out, pos })) ∧
      ∀ sub isArgument base,
      (∀ rest out, Alike (s.chainWith sub isArgument base (basedOn v rest out pos))
          (s.chainWith sub isArgument base (called v n rest out pos))) ↔
        opening? s.checker.registry (qualified path n pos) = none := by
  refine ⟨fun x p hv => ?_, fun path p hv => ⟨fun sub isArgument base rest out => ⟨?_, ?_⟩, ?_⟩⟩
  · have halike : ∀ (sub : LowerChain) isArgument base,
        (∀ rest out, Alike (s.chainWith sub isArgument base (basedOn v rest out pos))
          (s.chainWith sub isArgument base (called v n rest out pos))) ↔
        opening? s.checker.registry (callOf x {} pos) = opening? s.checker.registry
            (callOf x n pos) := by
      intro sub isArgument base
      refine (alike_iff_first (fun _ _ => ⟨rfl, rfl⟩) (calls_basedOn_ident hv base)
        (calls_called (expandCall_ident hn hv) base) fun rest h => ?_).trans
          (s.alike_first sub base _ _ _ n)
      exact (s.alike_first sub base _ _ _ n).2 ((s.alike_first sub base _ _ _ n).1 h)
    exact ⟨halike, fun hsame base rest out => alike_chain fun sub =>
      (halike sub false base).2 hsame rest out⟩
  · have hreported : { problem := .cannotStart v, pos } ∈
        (s.calls sub base (basedOn v rest out pos)).out.problems := by
      rw [calls_basedOn_member hv]
      exact (among_foldl_next base _ _).problems List.mem_cons_self
    exact (s.chainWith_calls sub isArgument base _).2.1.subset hreported
  · have hout : (basedOn v rest out pos).out = ({ calls := rest, out, pos } : Chain).out := rfl
    refine Alike.chainWith hout base ?_ isArgument
    rw [calls_basedOn_member hv, calls_unbased]
    exact (Progress.alike_begin _ _).foldl base _
  · intro sub isArgument base
    have hfirst : ∀ ds ds' : List Diagnostic, Progress.Alike { out := notes ds }
        (Progress.next s sub base { out := notes ds' } (qualified path n pos)) ↔
          opening? s.checker.registry (qualified path n pos) = none := by
      intro ds ds'
      have hnext := s.next_first sub base ds' (qualified path n pos)
      unfold Progress.Alike Surroundings.Alike
      cases hopening : opening? s.checker.registry (qualified path n pos) with
      | none =>
          rw [hopening] at hnext
          simp [hnext.1, hnext.2]
      | some spec =>
          rw [hopening] at hnext
          simp [hnext.2]
    refine (alike_iff_first (fun _ _ => ⟨rfl, rfl⟩) (calls_basedOn_member hv base)
      (calls_called (expandCall_member hn hv) base) fun rest h => ?_).trans (hfirst _ _)
    exact (hfirst _ _).2 ((hfirst _ _).1 h)

/-- Two operations with one name, in namespaces of their own. -/
def shelves : Registry where
  namespaces := { records := [{ space := "a", name := "ink" }, { space := "b", name := "ink" }] }
  ops := {
    specs := .ofList [("a.ink", { name := "a.ink" }), ("b.ink", { name := "b.ink" })]
    starters := ["a.ink", "b.ink"] }

/-- A variable for the name, and one for the second operation. -/
def shelf : Surroundings where
  checker := { registry := shelves }
  vars := .ofList [("v", .ident "ink" {}), ("w", .member ["b", "ink"] {})]

open Surroundings in
/-- As a base the variable stands for the first operation, whatever is searched, and as a call for
that of the namespace that is searched; the other variable stands for nothing as a base. -/
theorem shelf_alike : shelf.vars.get? "v" = some (.ident "ink" {}) ∧
    shelf.vars.get? "w" = some (.member ["b", "ink"] {}) ∧
    ∀ sub isArgument base,
      (∀ rest out, Alike (shelf.chainWith sub isArgument base (basedOn "v" rest out {}))
        (shelf.chainWith sub isArgument base (called "v" { search := ["a"] } rest out {}))) ∧
      (¬ ∀ rest out, Alike (shelf.chainWith sub isArgument base (basedOn "v" rest out {}))
        (shelf.chainWith sub isArgument base (called "v" { search := ["b"] } rest out {}))) ∧
      ¬ ∀ rest out, Alike (shelf.chainWith sub isArgument base (basedOn "w" rest out {}))
        (shelf.chainWith sub isArgument base (called "w" { search := ["b"] } rest out {})) := by
  have hv : shelf.vars.get? "v" = some (.ident "ink" {}) := rfl
  have hw : shelf.vars.get? "w" = some (.member ["b", "ink"] {}) := rfl
  refine ⟨hv, hw, fun sub isArgument base => ⟨?_, fun h => ?_, fun h => ?_⟩⟩
  · exact (((alias_alike_iff shelf "v" { search := ["a"] } rfl {}).1 "ink" {} hv).1 sub isArgument
      base).2 rfl
  · have hsame :=
      (((alias_alike_iff shelf "v" { search := ["b"] } rfl {}).1 "ink" {} hv).1 sub isArgument
        base).1 h
    have hname := congrArg (Option.map OpSpec.name) hsame
    exact absurd hname (by decide)
  · have hnone :=
      (((alias_alike_iff shelf "w" { search := ["b"] } rfl {}).2 _ {} hw).2 sub isArgument base).1 h
    have hname := congrArg (Option.map OpSpec.name) hnone
    exact absurd hname (by decide)

end EffectChain
