import EffectChain.Proofs.Plan.Calls

/-!
# EffectChain.Proofs.Plan.Growth

How the steps of a plan grow out of chains.

The steps of a chain are those of its calls, and the step of a call stands behind those of the
chains among its arguments; the input of a call is the step before these (`Grown`).  Lowering a
chain gives such steps (`Surroundings.grown_chain`), and the steps of a plan without diagnostics
are those of chain statements, one after another (`Plan.sliced_compile`).
-/

namespace EffectChain

open Emitted

/-! ## what is written for an argument -/

/-- What can be written for an argument, but for a chain. -/
def Value.Came (a : ArgSpec) (v : Value) : Prop :=
  match a.type with
  | .surface => ∃ x : Surface, v = .ref x ∧ x.Named
  | .float | .int => v.Numeric a.min a.max ∧ ∀ d, v = .dynamic d → d.signal.Closed
  | .boolean => v.Numeric none none ∧ ∀ d, v = .dynamic d → d.signal.Closed
  | .string => ∃ t, v = .text t
  | .color | .vec3 | .vec4 =>
    ∃ xs literal, v = .vector xs literal ∧ xs.length = Checker.vectorSize a.type ∧
      (literal ≠ "" → SpellsColor literal ∧
        xs = (Parser.colorOf literal).components (Checker.vectorSize a.type) ∧
        (a.type = .color ∨ literal.utf8ByteSize ≠ 9))
  | .member => ∃ x, v = .scalar x

namespace Checker

variable {k : Checker} {a : ArgSpec} {v : Value}

/-- Puts in what is written for an argument, else the default if there is one. -/
def fill (k : Checker) (r : Table Value × List String) (w : ArgSpec × Option Value) :
    Table Value × List String :=
  match w.2 with
  | some v => (r.1.insert w.1.name v, r.2 ++ [w.1.name])
  | none =>
    match k.defaultValue w.1 with
    | some v => (r.1.insert w.1.name v, r.2)
    | none => r

theorem closed_memberArg {e : Expr} (h : (k.memberArg a e).1 = some v) : ∃ x, v = .scalar x := by
  unfold memberArg at h
  dsimp only at h
  split at h
  · cases h
    exact ⟨_, rfl⟩
  case h_2 | h_3 | h_4 =>
    split at h <;> cases h
    exact ⟨_, rfl⟩
  · cases h

/-- The changing value a numeric parameter takes from a sound expression is closed. -/
theorem closed_numberArg {vars : Bindings} (hvars : vars.Sound) {e : Expr} (he : e.Sound)
    {d : Dynamic} (h : (k.numberArg vars a e).1 = some (.dynamic d)) : d.signal.Closed := by
  have hmember : (k.memberArg a e).1 ≠ some (.dynamic d) := fun h =>
    let ⟨_, hx⟩ := closed_memberArg h
    nomatch hx
  unfold numberArg at h
  dsimp only at h
  split at h
  · cases h
  case h_2 | h_3 | h_4 | h_5 | h_6 => cases h
  · split at h
    · exact absurd h hmember
    · exact closed_scalar hvars he h
  · split at h
    · exact absurd h hmember
    · split at h <;> cases h
  · split at h
    · exact closed_scalar hvars he h
    · cases h
  · exact closed_scalar hvars he h

/-- The changing value a boolean parameter takes from a sound expression is closed. -/
theorem closed_boolArg {vars : Bindings} (hvars : vars.Sound) {e : Expr} (he : e.Sound)
    {d : Dynamic} (h : (k.boolArg vars a e).1 = some (.dynamic d)) : d.signal.Closed := by
  unfold boolArg at h
  split at h
  · cases h
  · cases h
  · exact closed_scalar hvars he h
  · exact closed_scalar hvars he h
  · cases h

/-- One number is read from each component. -/
theorem numbers_length {es : List Expr} {xs : List Float} (h : numbers es = .ok xs) :
    xs.length = es.length := by
  induction es generalizing xs with
  | nil =>
    obtain rfl := Except.ok.inj h
    rfl
  | cons e es ih =>
    cases e with
    | number x raw pos =>
      obtain ⟨ys, hys, hxs⟩ := exists_of_bind h
      obtain rfl := Except.ok.inj hxs
      rw [List.length_cons, List.length_cons, ih hys]
    | _ => cases h

theorem vectorSize_cases (t : ArgType) : vectorSize t = 3 ∨ vectorSize t = 4 := by
  unfold vectorSize
  split
  · exact .inl rfl
  · exact .inr rfl

/-- A colour gives as many components as the parameter has. -/
theorem length_components (c : Rgba) (t : ArgType) :
    (c.components (vectorSize t)).length = vectorSize t := by
  rcases vectorSize_cases t with h | h <;> rw [h] <;> rfl

/-- A vector has as many components as its type, and those of its color if it keeps the digits of
one. -/
theorem came_vectorArg {e : Expr} (he : e.Sound) (h : (vectorArg a e).1 = some v) :
    ∃ xs literal, v = .vector xs literal ∧ xs.length = vectorSize a.type ∧
      (literal ≠ "" → SpellsColor literal ∧
        xs = (Parser.colorOf literal).components (vectorSize a.type) ∧
        (a.type = .color ∨ literal.utf8ByteSize ≠ 9)) := by
  unfold vectorArg at h
  dsimp only at h
  split at h
  · rename_i raw rgba pos
    obtain rfl := Option.some.inj h
    obtain ⟨hraw, rfl⟩ := ((Expr.sound_iff _).1 he).1
    refine ⟨_, _, rfl, length_components _ _, fun hne => ?_⟩
    split at hne
    · rename_i hkept
      rw [if_pos hkept]
      exact ⟨hraw, rfl, by simpa using hkept⟩
    · exact absurd rfl hne
  · rename_i c
    split at h
    · cases h
    · have hsize : ∃ size, (if c.name = "vec4" then 4 else 3) = size ∧ (size = 3 ∨ size = 4) :=
        ⟨_, rfl, by split <;> simp⟩
      obtain ⟨size, heq, hsize⟩ := hsize
      rw [heq] at h
      split at h
      · cases h
      · rename_i hcount
        split at h
        · cases h
        · rename_i xs hxs
          obtain rfl := Option.some.inj h
          refine ⟨_, _, rfl, ?_, fun hne => absurd rfl hne⟩
          have hlength := numbers_length hxs
          have hwant := vectorSize_cases a.type
          simp only [Bool.or_eq_true, decide_eq_true_eq, not_or, ne_eq, not_not, gt_iff_lt,
            Nat.not_lt] at hcount
          split
          · rw [List.length_append, List.length_singleton]
            omega
          · omega
  · cases h

end Checker

namespace Surroundings

variable {s : Surroundings} {sub : LowerChain}

/-- What is written for an argument is no chain or can be written for it. -/
theorem came_argument (hvars : s.vars.Sound) {base : Nat} {a : ArgSpec} {e : Expr} (he : e.Sound)
    {v : Value} (h : (s.argument sub base a e).2 = some v) (hsurface : a.type ≠ .surface) :
    v.Came a := by
  have hsound := hvars.deref he
  unfold argument at h
  generalize s.vars.deref e = e at h hsound
  unfold Value.Came
  cases ht : a.type with
  | surface => exact absurd ht hsurface
  | float | int =>
    rw [ht] at h
    refine ⟨Checker.numeric_numberArg h, ?_⟩
    rintro d rfl
    exact Checker.closed_numberArg hvars hsound h
  | boolean =>
    rw [ht] at h
    refine ⟨Checker.numeric_boolArg h, ?_⟩
    rintro d rfl
    exact Checker.closed_boolArg hvars hsound h
  | string =>
    rw [ht] at h
    dsimp only at h
    split at h
    · exact ⟨_, (Option.some.inj h).symm⟩
    · cases h
  | color | vec3 | vec4 =>
    rw [ht] at h
    have hcame := Checker.came_vectorArg hsound h
    rw [ht] at hcame
    exact hcame
  | member =>
    rw [ht] at h
    exact Checker.closed_memberArg h

end Surroundings

/-! ## steps that grow -/

/-- A part of a chain statement: a chain by the operation of its first call and the surface it is
written to, or arguments with what is written for each. -/
inductive Shoot
  | calls (op : String) (out : Option Surface)
  | args (written : List (ArgSpec × Option Value))

/-- The step is that of a call of the operation, with what is written for its arguments. -/
structure Step.Calls (k : Checker) (gs : List Dynamic) (r : Repeat) (spec : OpSpec)
    (written : List (ArgSpec × Option Value)) (temp : Nat) (source : Option Nat)
    (out : Option Surface) (st : Step) :
    Prop where
  call : ∃ c : Call, Undotted c.name ∧ Surroundings.resolve? k.registry c = some spec ∧ st.ns = c.ns
  specs : written.map Prod.fst = spec.args
  op : st.op = spec.name
  values : written.foldl k.fill ({}, []) = (st.args, st.explicit)
  source : st.source = source
  temp : st.temp = temp
  out : st.out = out
  guards : st.guards = gs
  repetition : st.repetition = r

/-- The steps of a part of a chain statement after `base` steps. -/
inductive Grown (k : Checker) (gs : List Dynamic) (r : Repeat) : Shoot → Nat → List Step → Prop
  | nil {base : Nat} : Grown k gs r (.args []) base []
  | omitted {a : ArgSpec} {written : List (ArgSpec × Option Value)} {base : Nat} {steps : List Step}
      (rest : Grown k gs r (.args written) base steps) : Grown k gs r (.args ((a, none) :: written))
        base steps
  | plain {a : ArgSpec} {v : Value} {written : List (ArgSpec × Option Value)} {base : Nat}
      {steps : List Step}
      (came : v.Came a) (rest : Grown k gs r (.args written) base steps) :
      Grown k gs r (.args ((a, some v) :: written)) base steps
  | chain {a : ArgSpec} {written : List (ArgSpec × Option Value)} {base last : Nat} {op : String}
      {out : Option Surface} {own steps : List Step} (surface : a.type = .surface)
      (before : Grown k gs r (.calls op out) base own) (hlast : last + 1 = base + own.length)
      (rest : Grown k gs r (.args written) (base + own.length) steps) :
      Grown k gs r (.args ((a, some (.ref ⟨.temp, last⟩)) :: written)) base (own ++ steps)
  | first {spec : OpSpec} {written : List (ArgSpec × Option Value)} {base : Nat}
      {out : Option Surface}
      {own : List Step} {st : Step} (args : Grown k gs r (.args written) base own)
      (step : st.Calls k gs r spec written (base + own.length) none out)
      (starts : k.registry.ops.isStarter spec.name = true ∨
        k.registry.ops.isPassthrough spec.name = true)
      (named : ∀ o ∈ out, o.Named ∧ o.Writable) : Grown k gs r (.calls spec.name out) base
        (own ++ [st])
  | next {op : String} {spec : OpSpec} {written : List (ArgSpec × Option Value)} {base last : Nat}
      {out : Option Surface} {steps own : List Step} {st : Step}
        (before : Grown k gs r (.calls op none) base steps)
      (hlast : last + 1 = base + steps.length)
        (args : Grown k gs r (.args written) (base + steps.length) own)
      (step : st.Calls k gs r spec written (base + steps.length + own.length) (some last) out)
      (goesOn : k.registry.ops.isStarter spec.name = false) (named : ∀ o ∈ out,
        o.Named ∧ o.Writable) :
      Grown k gs r (.calls op out) base (steps ++ (own ++ [st]))

namespace Grown

variable {k : Checker} {gs : List Dynamic} {r : Repeat} {part : Shoot} {base : Nat}
    {steps : List Step}

/-- Every step has the number of its place. -/
theorem temps (h : Grown k gs r part base steps) :
    steps.map Step.temp = List.range' base steps.length := by
  induction h with
  | nil => rfl
  | omitted _ ih => exact ih
  | plain _ _ ih => exact ih
  | chain _ _ _ _ ihown ih =>
      rw [List.map_append, ihown, ih, List.length_append, List.range'_append_1]
  | first _ step _ _ ih =>
    rw [List.map_append, ih, List.length_append, List.length_singleton, List.range'_concat,
      List.map_singleton, step.temp, Nat.one_mul]
  | next _ _ _ step _ _ ihbefore ih =>
    rw [List.map_append, List.map_append, ihbefore, ih, List.map_singleton, step.temp,
      List.length_append, List.length_append, List.length_singleton, ← List.range'_append_1,
        List.range'_concat, Nat.one_mul]

/-- The steps of a part are numbered from its base on. -/
theorem temp_bounds (h : Grown k gs r part base steps) {st : Step} (hst : st ∈ steps) :
    base ≤ st.temp ∧ st.temp < base + steps.length := by
  have hmem : st.temp ∈ List.range' base steps.length := h.temps ▸ List.mem_map_of_mem hst
  simpa using hmem

/-- A step of a part is numbered by its place. -/
theorem temp_of_get? (h : Grown k gs r part base steps) {i : Nat} {st : Step}
    (hst : steps[i]? = some st) :
    st.temp = base + i := by
  obtain ⟨hi, rfl⟩ := List.getElem?_eq_some_iff.1 hst
  have hget := congrArg (·[i]?) h.temps
  simpa [hi] using hget

/-- The step that ends a chain is written to a surface. -/
theorem setOut {op : String} (h : Grown k gs r (.calls op none) base steps) {last : Nat}
    (hlast : last + 1 = base + steps.length) {o : Surface} (ho : o.Named ∧ o.Writable) :
    Grown k gs r (.calls op (some o)) base (Surroundings.setOut last o steps) := by
  have hsame : ∀ {part : Shoot} {base : Nat} {steps : List Step}, Grown k gs r part base steps →
      base + steps.length ≤ last →
      steps.map (fun st => if st.temp = last then { st with out := some o } else st) = steps := by
    intro part base steps hsteps hle
    refine (List.map_congr_left fun st hst => ?_).trans (List.map_id steps)
    have hlt := (hsteps.temp_bounds hst).2
    rw [if_neg (by omega), id]
  unfold Surroundings.setOut
  cases h with
  | @first spec written _ _ own st args step starts named =>
    rw [List.length_append, List.length_singleton] at hlast
    have htemp : st.temp = last := by rw [step.temp]; omega
    rw [List.map_append, hsame args (by omega), List.map_singleton, if_pos htemp]
    exact .first args { step with out := rfl } starts (by simpa using ho)
  | @next _ spec written _ last' _ steps own st before hlast' args step goesOn named =>
    rw [List.length_append, List.length_append, List.length_singleton] at hlast
    have htemp : st.temp = last := by rw [step.temp]; omega
    rw [List.map_append, List.map_append, hsame before (by omega), hsame args (by omega),
      List.map_singleton, if_pos htemp]
    exact .next before hlast' args { step with out := rfl } goesOn (by simpa using ho)

/-- How often the steps run is changed for all of them. -/
theorem repeated (h : Grown k gs r part base steps) (n : Nat) (factor : Option Dynamic) :
    ∃ r', Grown k gs r' part base (steps.map fun st => (Surroundings.repeated n factor st).1) := by
  have hcommon : ∃ r', ∀ st : Step, st.repetition = r →
      (Surroundings.repeated n factor st).1 = { st with repetition := r' } := by
    refine ⟨(Surroundings.repeated n factor { op := "", repetition := r }).1.repetition,
      fun st hst => ?_⟩
    rw [Surroundings.repeated_fst]
    unfold Surroundings.repeated
    rw [hst]
    dsimp only
    split <;> rfl
  obtain ⟨r', hr⟩ := hcommon
  refine ⟨r', ?_⟩
  have hstep : ∀ {spec written temp source out} {st : Step},
      st.Calls k gs r spec written temp source out →
      ((Surroundings.repeated n factor st).1).Calls k gs r' spec written temp source out := by
    intro spec written temp source out st h
    rw [hr st h.repetition]
    exact { h with repetition := rfl }
  induction h with
  | nil => exact .nil
  | omitted _ ih => exact .omitted ih
  | plain came _ ih => exact .plain came ih
  | chain surface _ hlast _ ihown ih =>
    rw [List.map_append]
    exact .chain surface ihown (by simpa using hlast) (by simpa using ih)
  | first _ step starts named ih =>
    rw [List.map_append, List.map_singleton]
    exact .first ih (by simpa using hstep step) starts named
  | next _ hlast _ step goesOn named ihbefore ih =>
    rw [List.map_append, List.map_append, List.map_singleton]
    exact .next ihbefore (by simpa using hlast) (by simpa using ih) (by simpa using hstep step)
      goesOn named

end Grown

namespace Surroundings

variable {s : Surroundings} {sub : LowerChain}

/-- A chain comes to the steps of one, and the last of them is its result. -/
def Sprouts (s : Surroundings) (base : Nat) (r : Emitted × Option Nat) : Prop :=
  r.2 = none ∧ r.1.steps = [] ∨ ∃ last op out, r.2 = some last ∧
    last + 1 = base + r.1.steps.length ∧
    Grown s.checker s.guards {} (.calls op out) base r.1.steps

/-- An argument brings the steps of a chain with it if it is one. -/
theorem grown_argument (hvars : s.vars.Sound)
    (hsub : ∀ base ch, ch.Sound → s.Sprouts base (sub base ch)) (base : Nat) (a : ArgSpec)
    {e : Expr} (he : e.Sound) :
    (s.argument sub base a e).2 = none ∧ (s.argument sub base a e).1.steps = [] ∨
      ∃ v, (s.argument sub base a e).2 = some v ∧ ∀ written rest,
        Grown s.checker s.guards {} (.args written)
          (base + (s.argument sub base a e).1.steps.length) rest →
        Grown s.checker s.guards {} (.args ((a, some v) :: written)) base
          ((s.argument sub base a e).1.steps ++ rest) := by
  by_cases hsurface : a.type = .surface
  · have hsound := hvars.deref he
    have hnamed : ∀ x : Surface, x.Named → ∀ written rest,
        Grown s.checker s.guards {} (.args written) base rest →
        Grown s.checker s.guards {} (.args ((a, some (.ref x)) :: written)) base rest :=
      fun x hx _ _ hrest => .plain (by rw [Value.Came, hsurface]; exact ⟨x, rfl, hx⟩) hrest
    have hchain : ∀ ch : Chain, ch.Sound →
        ((sub base ch).2.map fun t => Value.ref ⟨.temp, t⟩) = none ∧ (sub base ch).1.steps = [] ∨
          ∃ v, ((sub base ch).2.map fun t => Value.ref ⟨.temp, t⟩) = some v ∧ ∀ written rest,
            Grown s.checker s.guards {} (.args written) (base + (sub base ch).1.steps.length) rest →
            Grown s.checker s.guards {} (.args ((a, some v) :: written)) base
                ((sub base ch).1.steps ++ rest) := by
      intro ch hch
      rcases hsub base ch hch with ⟨hnone, hsteps⟩ | ⟨last, op, out, hsome, hlast, hgrown⟩
      · rw [hnone]
        exact .inl ⟨rfl, hsteps⟩
      · rw [hsome]
        exact .inr ⟨_, rfl, fun written rest hrest => .chain hsurface hgrown hlast hrest⟩
    unfold argument
    rw [hsurface]
    generalize s.vars.deref e = e at hsound
    unfold surfaceArg
    dsimp only
    split
    · exact .inr ⟨_, rfl, hnamed _ ((Expr.sound_iff _).1 hsound).1⟩
    · split
      · rename_i x hx
        exact .inr ⟨_, rfl, hnamed x ⟨_, hx⟩⟩
      · exact .inl ⟨rfl, rfl⟩
    · exact hchain _ ⟨by simpa using hsound, nofun⟩
    · exact hchain _ ((Expr.sound_chain _).1 hsound)
    · exact .inl ⟨rfl, rfl⟩
    · exact .inl ⟨rfl, rfl⟩
  · have hnone : (s.argument sub base a e).1.steps = [] := by
      unfold argument
      cases ht : a.type with
      | surface => exact absurd ht hsurface
      | string =>
        dsimp only
        split <;> rfl
      | _ => rfl
    cases hv : (s.argument sub base a e).2 with
    | none => exact .inl ⟨rfl, hnone⟩
    | some v =>
      refine .inr ⟨v, rfl, fun written rest hrest => ?_⟩
      rw [hnone] at hrest ⊢
      exact .plain (came_argument hvars he hv hsurface) hrest

/-- The arguments of a call and what is written for each. -/
theorem grown_take (hvars : s.vars.Sound)
    (hsub : ∀ base ch, ch.Sound → s.Sprouts base (sub base ch)) (base : Nat) {given : Table Expr}
    (hgiven : Bindings.Sound given) (as : List ArgSpec) (r : Arguments) :
    ∃ written steps, written.map Prod.fst = as ∧
      (as.foldl (Arguments.take s sub base given) r).out.steps = r.out.steps ++ steps ∧
      written.foldl s.checker.fill (r.values, r.explicit) =
        ((as.foldl (Arguments.take s sub base given) r).values,
          (as.foldl (Arguments.take s sub base given) r).explicit) ∧
      Grown s.checker s.guards {} (.args written) (base + r.out.steps.length) steps := by
  induction as generalizing r with
  | nil => exact ⟨[], [], rfl, by simp, rfl, .nil⟩
  | cons a as ih =>
    obtain ⟨written, steps, hspecs, hsteps, hvalues, hgrown⟩ :=
      ih (Arguments.take s sub base given r a)
    rw [List.foldl_cons]
    rcases take_cases s sub base given r a with ⟨e, out, v, hget, harg, htake⟩ | ⟨out, hout, htake⟩
    · have hargument := grown_argument hvars hsub (base + r.out.steps.length) a (hgiven.get? hget)
      rw [harg] at hargument
      obtain ⟨hnone, -⟩ | ⟨v', hv', hcons⟩ := hargument
      · cases hnone
      obtain rfl := Option.some.inj hv'
      refine ⟨(a, some v) :: written, out.steps ++ steps, by rw [List.map_cons, hspecs], ?_, ?_, ?_⟩
      · rw [hsteps, htake]
        exact List.append_assoc ..
      · rw [← hvalues, htake]
        rfl
      · refine hcons written steps ?_
        rw [htake] at hgrown
        simpa [Nat.add_assoc] using hgrown
    · have hnone : out.steps = [] := by
        rcases hout with ⟨-, rfl⟩ | ⟨e, hget, harg⟩
        · rfl
        · have hargument :=
            grown_argument hvars hsub (base + r.out.steps.length) a (hgiven.get? hget)
          rw [harg] at hargument
          rcases hargument with ⟨-, hsteps⟩ | ⟨v, hv, -⟩
          · exact hsteps
          · cases hv
      refine ⟨(a, none) :: written, steps, by rw [List.map_cons, hspecs], ?_, ?_, ?_⟩
      · rcases htake with ⟨v, -, htake⟩ | htake <;> simpa [htake, hnone] using hsteps
      · rw [← hvalues, List.foldl_cons]
        congr 1
        unfold Checker.fill Arguments.take
        rcases hout with ⟨hget, -⟩ | ⟨e, hget, harg⟩
        · rw [hget]
          cases s.checker.defaultValue a <;> rfl
        · rw [hget]
          dsimp only
          rw [harg]
          cases s.checker.defaultValue a <;> rfl
      · refine .omitted ?_
        rcases htake with ⟨v, -, htake⟩ | htake <;> simpa [htake, hnone] using hgrown

/-- The step of a call, behind those of its arguments. -/
theorem grown_call (hvars : s.vars.Sound)
    (hsub : ∀ base ch, ch.Sound → s.Sprouts base (sub base ch)) (base : Nat) {c : Call}
    (hc : c.Sound) {spec : OpSpec} (hspec : resolve? s.checker.registry c = some spec)
    (source : Option Nat) :
    ∃ written own, Grown s.checker s.guards {} (.args written) base own ∧
      (s.stepOf sub base c spec source).Calls s.checker s.guards {} spec written (base + own.length)
        source none ∧
      (s.call sub base c spec source).1.steps = own ++ [s.stepOf sub base c spec source] ∧
      (s.call sub base c spec source).2 = base + own.length := by
  obtain ⟨written, own, hspecs, hsteps, hvalues, hgrown⟩ :=
    grown_take hvars hsub base (sound_given hc spec) spec.args
      { out := notes ((positional spec.name {} spec.args c.args).2 ++
      (keywords s.checker spec spec.name (positional spec.name {} spec.args c.args).1 c.kwargs).2) }
  have hown : (s.arguments sub base c spec).out.steps = own := hsteps
  have htemp : (s.stepOf sub base c spec source).temp = base + own.length := by rw [← hown]; rfl
  refine ⟨written, own, hgrown,
    ⟨⟨c, hc.name, hspec, rfl⟩, hspecs, rfl, hvalues, rfl, htemp, rfl, rfl, rfl⟩, ?_, ?_⟩
  · rw [call_eq, steps_append, hown]
  · rw [call_eq, htemp]

/-- A chain so far: nothing yet, or the steps of one. -/
def Progress.Sprouted (s : Surroundings) (base : Nat) (p : Progress) : Prop :=
  p.last = none ∧ p.out.steps = [] ∧ (p.out.problems = [] → p.begun = false) ∨
    ∃ last op, p.last = some last ∧ last + 1 = base + p.out.steps.length ∧
      Grown s.checker s.guards {} (.calls op none) base p.out.steps ∧
      (p.out.problems = [] → p.begun = true ∧
        p.starter = if s.checker.registry.ops.isStarter op then some op else none)

/-- One more call keeps what is known of the chain so far. -/
theorem sprouted_next (hvars : s.vars.Sound)
    (hsub : ∀ base ch, ch.Sound → s.Sprouts base (sub base ch)) {base : Nat} {p : Progress}
    (h : p.Sprouted s base) {c : Call} (hc : c.Sound) :
    (Progress.next s sub base p c).Sprouted s base := by
  have hnotes : ∀ (d : Diagnostic) (starter : Option String) (begun : Bool),
      Progress.Sprouted s base { out := p.out ++ notes [d], last := p.last, starter, begun } := by
    intro d starter begun
    rcases h with ⟨hlast, hsteps, -⟩ | ⟨last, op, hlast, hnumber, hgrown, -⟩
    · exact .inl ⟨hlast, by simpa using hsteps, by simp⟩
    · exact .inr ⟨last, op, hlast, by simpa using hnumber, by simpa using hgrown, by simp⟩
  unfold Progress.next
  dsimp only
  split
  · exact hnotes ..
  · rename_i spec hspec
    split
    · exact hnotes ..
    · rename_i hinput
      split
      · exact hnotes ..
      · rename_i hbegins
        obtain ⟨written, own, hargs, hstep, hsteps, htemp⟩ :=
          grown_call hvars hsub (base + p.out.steps.length) hc hspec p.last
        right
        rcases h with ⟨hlast, hnone, hbegun⟩ | ⟨last, op, hlast, hnumber, hgrown, hbegun⟩
        · have hstarts : s.checker.registry.ops.isStarter spec.name = true ∨
              s.checker.registry.ops.isPassthrough spec.name = true := by
            simp only [hlast, Option.isNone_none, Bool.true_and, Bool.and_eq_true,
              Bool.not_eq_true'] at hinput
            cases hs : s.checker.registry.ops.isStarter spec.name <;>
              cases hp : s.checker.registry.ops.isPassthrough spec.name <;> simp_all
          refine ⟨_, spec.name, rfl, ?_, ?_, fun hclean => ?_⟩
          · rw [htemp, steps_append, hsteps, hnone]
            simp [Nat.add_assoc]
          · have hbase : base + p.out.steps.length =
              base := by rw [hnone, List.length_nil, Nat.add_zero]
            rw [hbase, hlast] at hstep
            rw [hbase] at hargs
            rw [steps_append, hsteps, hnone, List.nil_append, List.length_nil, Nat.add_zero, hlast]
            exact .first hargs hstep hstarts (by simp)
          · have hclean' : p.out.problems = [] := (List.append_eq_nil_iff.1 hclean).1
            simp [hbegun hclean']
        · have hgoesOn : s.checker.registry.ops.isStarter spec.name = false := by
            simpa [hlast] using hbegins
          refine ⟨_, op, rfl, ?_, ?_, fun hclean => ?_⟩
          · rw [htemp, steps_append, hsteps]
            simp [Nat.add_assoc]
          · rw [steps_append, hsteps]
            rw [hlast] at hstep
            exact .next hgrown hnumber hargs (by rw [hlast]; exact hstep) hgoesOn (by simp)
          · have hclean' : p.out.problems = [] := (List.append_eq_nil_iff.1 hclean).1
            obtain ⟨hbegun, hstarter⟩ := hbegun hclean'
            simp [hbegun, hstarter]

/-- What a chain is written to is an output or a feedback of the language. -/
theorem named_outTarget (hvars : s.vars.Sound) {e : Expr}
    (he : ∀ x pos, e = .surface x pos → x.Named) {o : Surface}
    (h : (outTarget s.vars e).1 = some o) : o.Named ∧ o.Writable := by
  refine ⟨?_, writable_outTarget h⟩
  unfold outTarget at h
  split at h
  · rename_i x pos hx
    split at h
    · obtain rfl := Option.some.inj h
      rcases s.vars.deref_cases e with heq | hmem
      · exact he x pos (heq.symm.trans hx)
      · exact ((Expr.sound_iff _).1 (hx ▸ hvars _ hmem)).1
    · cases h
  · cases h
  · cases h

theorem outTarget_refused {vars : Bindings} {e : Expr} {ds : List Diagnostic}
    (h : outTarget vars e = (none, ds)) :
    ds ≠ [] := by
  unfold outTarget at h
  split at h
  · split at h <;> cases h
    simp
  · cases h
    simp
  · cases h
    simp

/-- The calls of a chain keep what is known of the chain so far. -/
theorem sprouted_foldl (hvars : s.vars.Sound)
    (hsub : ∀ base ch, ch.Sound → s.Sprouts base (sub base ch)) {base : Nat} {cs : List Call}
    (hcs : ∀ c ∈ cs, c.Sound) {p : Progress} (h : p.Sprouted s base) :
    (cs.foldl (Progress.next s sub base) p).Sprouted s base := by
  induction cs generalizing p with
  | nil => exact h
  | cons c cs ih =>
    obtain ⟨hc, hcs⟩ := List.forall_mem_cons.1 hcs
    exact ih hcs (sprouted_next hvars hsub h hc)

/-- A chain comes to the steps of one; without problems one that is no argument begins with no image
unless it is written somewhere. -/
theorem sprouts_chainWith (hvars : s.vars.Sound)
    (hsub : ∀ base ch, ch.Sound → s.Sprouts base (sub base ch)) (isArgument : Bool) (base : Nat)
    {ch : Chain} (hch : ch.Sound) :
    s.Sprouts base (s.chainWith sub isArgument base ch) ∧
      (isArgument = false → (s.chainWith sub isArgument base ch).1.problems = [] →
        (s.chainWith sub isArgument base ch).1.steps = [] ∨
        ∃ op out, Grown s.checker s.guards {} (.calls op out) base
          (s.chainWith sub isArgument base ch).1.steps ∧
          (out = none → s.checker.registry.ops.isStarter op = false)) := by
  have hstart : Progress.Sprouted s base { out := notes (s.vars.expandChain ch).2 } :=
    .inl ⟨rfl, rfl, fun _ => rfl⟩
  have hcalls := sprouted_foldl hvars hsub (fun c => hvars.expandChain hch.calls) hstart
  unfold chainWith
  dsimp only
  generalize (s.vars.expandChain ch).1.foldl (Progress.next s sub base) _ = p at hcalls
  rcases hcalls with ⟨hlast, hsteps, -⟩ | ⟨last, op, hlast, hnumber, hgrown, hbegun⟩
  · rw [hlast]
    exact ⟨.inl ⟨rfl, hsteps⟩, fun _ _ => .inl hsteps⟩
  · rw [hlast]
    dsimp only
    have hkept : ∀ ds : List Diagnostic, s.Sprouts base (p.out ++ notes ds, some last) := fun ds =>
      .inr ⟨last, op, none, rfl, by simpa using hnumber, by simpa using hgrown⟩
    cases hout : ch.out with
    | some e =>
      dsimp only
      cases htarget : outTarget s.vars e with
      | mk target ds =>
        cases target with
        | some o =>
          have ho := named_outTarget hvars (fun x pos he => hch.out x pos (he ▸ hout))
            (by rw [htarget])
          have hset := hgrown.setOut hnumber ho
          have hlength : (setOut last o p.out.steps).length = p.out.steps.length :=
            List.length_map _
          refine ⟨.inr ⟨last, op, some o, rfl, ?_, by simpa using hset⟩,
            fun _ _ => .inr ⟨op, some o, by simpa using hset, nofun⟩⟩
          simpa [hlength] using hnumber
        | none =>
          refine ⟨hkept ds, fun _ hclean => ?_⟩
          exact absurd (List.append_eq_nil_iff.1 hclean).2 (outTarget_refused htarget)
    | none =>
      dsimp only
      cases hstarter : p.starter with
      | some op' =>
        dsimp only
        cases isArgument with
        | true => exact ⟨.inr ⟨last, op, none, rfl, hnumber, hgrown⟩, nofun⟩
        | false =>
            exact ⟨hkept _, fun _ hclean =>
              absurd (List.append_eq_nil_iff.1 hclean).2 (by simp [note])⟩
      | none =>
        refine ⟨.inr ⟨last, op, none, rfl, hnumber, hgrown⟩, fun _ hclean =>
          .inr ⟨op, none, hgrown, fun _ => ?_⟩⟩
        have hstart := (hbegun hclean).2
        rw [hstarter] at hstart
        by_contra hs
        rw [if_pos (by simpa using hs)] at hstart
        cases hstart

/-- A nested chain comes to the steps of one at every depth. -/
theorem sprouts_subchain (hvars : s.vars.Sound) (depth base : Nat) {ch : Chain} (hch : ch.Sound) :
    s.Sprouts base (s.subchain depth base ch) := by
  induction depth generalizing base ch with
  | zero => exact .inl ⟨rfl, rfl⟩
  | succ depth ih =>
      exact (sprouts_chainWith hvars (fun base ch hch => ih base hch) true base hch).1

/-- A chain statement without problems adds nothing, or the steps of a chain. -/
theorem grown_chain (hvars : s.vars.Sound) (base : Nat) {ch : Chain} (hch : ch.Sound)
    (hclean : (s.chain base ch).problems = []) :
    (s.chain base ch).steps = [] ∨ ∃ op out,
    Grown s.checker s.guards {} (.calls op out) base (s.chain base ch).steps ∧
      (out = none → s.checker.registry.ops.isStarter op = false) :=
  (sprouts_chainWith hvars (fun base _ hch => sprouts_subchain hvars _ base hch) false base hch).2
    rfl hclean

end Surroundings

/-! ## plans -/

/-- The steps of chain statements, one after another; those of one stand under the same guards and
loops. -/
inductive Sliced (k : Checker) : Nat → List (List Step) → Prop
  | nil {base : Nat} : Sliced k base []
  | cons {base : Nat} {gs : List Dynamic} {r : Repeat} {op : String} {out : Option Surface}
      {steps : List Step}
      {slices : List (List Step)} (first : Grown k gs r (.calls op out) base steps)
      (written : out = none → k.registry.ops.isStarter op = false)
        (rest : Sliced k (base + steps.length) slices) :
      Sliced k base (steps :: slices)

namespace Sliced

variable {k : Checker} {base : Nat} {slices slices' : List (List Step)}

/-- The steps of two blocks are the steps of their chain statements, one after another. -/
theorem append (h : Sliced k base slices) (h' : Sliced k (base + slices.flatten.length) slices') :
    Sliced k base (slices ++ slices') := by
  induction h with
  | nil => exact h'
  | cons first written _ ih => exact .cons first written (ih (by simpa [Nat.add_assoc] using h'))

/-- A loop around chain statements leaves them chain statements. -/
theorem repeated (h : Sliced k base slices) (n : Nat) (factor : Option Dynamic) :
    Sliced k base (slices.map (List.map fun st => (Surroundings.repeated n factor st).1)) := by
  induction h with
  | nil => exact .nil
  | cons first written _ ih =>
    obtain ⟨r', hfirst⟩ := first.repeated n factor
    exact .cons hfirst written (by simpa using ih)

/-- Steps that are those of chain statements. -/
theorem gathers (k : Checker) :
    Gathers fun base steps => ∃ slices, steps = slices.flatten ∧ Sliced k base slices where
  nil _ := ⟨[], rfl, .nil⟩
  append := by
    rintro base _ _ ⟨slices, rfl, h⟩ ⟨slices', rfl, h'⟩
    exact ⟨slices ++ slices', List.flatten_append.symm, h.append h'⟩
  repeated := by
    rintro base _ n factor ⟨slices, rfl, h⟩
    exact ⟨_, List.map_flatten, h.repeated n factor⟩

end Sliced

mutual

/-- What a statement binds and runs is among all its expressions. -/
theorem Stmt.exprs_subset_terms (st : Stmt) : st.exprs ⊆ st.terms := by
  cases st with
  | bind | run | leaveLoop | nextRound | finish => simp [exprs, terms]
  | choose arms otherwise pos =>
    have harms := exprsArms_subset_terms arms
    cases otherwise with
    | none => simpa [exprs, terms] using harms
    | some body =>
      rw [exprs, terms]
      exact List.append_subset.2 ⟨List.subset_append_of_subset_left _ harms,
        List.subset_append_of_subset_right _ (exprsBlock_subset_terms body)⟩
  | repeated count body pos =>
    have hbody := exprsBlock_subset_terms body
    cases count with
    | none => simpa [exprs, terms] using hbody
    | some e =>
      rw [exprs, terms]
      exact List.subset_cons_of_subset e hbody

theorem Stmt.exprsBlock_subset_terms (body : List Stmt) : exprsBlock body ⊆ termsBlock body := by
  cases body with
  | nil => simp [exprsBlock]
  | cons st rest =>
    rw [exprsBlock, termsBlock]
    exact List.append_subset.2 ⟨List.subset_append_of_subset_left _ (exprs_subset_terms st),
      List.subset_append_of_subset_right _ (exprsBlock_subset_terms rest)⟩

theorem Stmt.exprsArms_subset_terms (arms : List Branch) : exprsArms arms ⊆ termsArms arms := by
  cases arms with
  | nil => simp [exprsArms]
  | cons arm rest =>
    obtain ⟨cond, body, pos⟩ := arm
    rw [exprsArms, termsArms]
    refine List.append_subset.2
      ⟨?_, List.subset_append_of_subset_right _ (exprsArms_subset_terms rest)⟩
    exact List.subset_append_of_subset_left _
      (List.subset_cons_of_subset cond (exprsBlock_subset_terms body))

end

/-- What binding sound expressions keeps. -/
theorem Surroundings.binds_sound (ds : List Diagnostic) : Binds ds Expr.Sound Bindings.Sound :=
  ⟨fun _ name _ hvars hvalue _ => hvars.bind name hvalue⟩

/-- The steps of a plan without diagnostics are those of chain statements. -/
theorem Plan.sliced_compile {source : Bytes} {registry : Registry} {options : Options} {p : Plan}
    (h : Plan.compile source registry options = .ok p) (hclean : p.diagnostics = []) :
    ∃ slices, p.steps = slices.flatten ∧ Sliced { registry, suggest := options.suggest } 0
      slices := by
  obtain ⟨program, hparse, hplan⟩ := compile_eq_ok_iff.1 h
  obtain ⟨out, hblock, hsteps, hproblems, -⟩ := Program.plan_block hplan
  obtain ⟨stmts, ds, hstmts, hsame⟩ := Program.exists_soundBlock hparse
    { checker := { registry, suggest := options.suggest } }
  rw [← hblock, hsame] at hsteps hproblems
  rw [hclean] at hproblems
  obtain ⟨hnone, -⟩ := List.append_eq_nil_iff.1 hproblems.symm
  have hsliced :=
    Surroundings.gathered_reached (Sliced.gathers { registry, suggest := options.suggest }) stmts
    { checker := { registry, suggest := options.suggest } } 0 fun s' base' ch pos rest hreach => ?_
  · rw [hsteps]
    simpa using hsliced
  obtain ⟨hchecker, hvars, hexprs⟩ := hreach.keeps (Surroundings.binds_sound _) nofun
    (fun e he => hstmts e (Stmt.exprsBlock_subset_terms stmts he)) (List.Subset.refl _)
  have hch : (Expr.chain ch).Sound := hexprs _ (by simp [Stmt.exprsBlock, Stmt.exprs])
  have hproblems :=
    ((Surroundings.stmt_within s' base' (.run ch pos) rest).trans hreach.within).problems
  rw [Surroundings.stmt, hnone, List.subset_nil] at hproblems
  rcases Surroundings.grown_chain hvars base' ((Expr.sound_chain ch).1 hch) hproblems with hnil
    | ⟨op, o, hgrown, hout⟩
  · exact ⟨[], hnil, .nil⟩
  · rw [hchecker] at hgrown hout
    exact ⟨[_], by simp, .cons hgrown hout .nil⟩

/-- What steps stand under: conditions and a factor that programs have, and a count within the
limit. -/
structure Step.Framed (st : Step) : Prop where
  guards : ∀ g ∈ st.guards, g.Bare
  count_pos : 0 < st.repetition.count
  count_le : st.repetition.count ≤ maxRepeat
  factor : ∀ d, st.repetition.factor = some d → d.Bare ∧ d.negated = false

/-- A step of a loop's body stands under the same conditions and one more loop. -/
theorem Step.Framed.repeated {st : Step} (h : st.Framed) {n : Nat} {factor : Option Dynamic}
    (hfactor : ∀ d, factor = some d → d.Bare ∧ d.negated = false) :
    (Surroundings.repeated (n + 1) factor st).1.Framed := by
  have hproduct : 0 < st.repetition.count * (n + 1) := Int.mul_pos h.count_pos (by omega)
  have hcount : 0 < (Repeat.times st.repetition.count (n + 1 : Nat)).1 := by
    rw [Repeat.times_eq_min h.count_pos, lt_min_iff]
    exact ⟨by simpa using hproduct, by decide⟩
  have hle : (Repeat.times st.repetition.count (n + 1 : Nat)).1 ≤ maxRepeat := by
    rw [Repeat.times_eq_min h.count_pos]
    exact min_le_right _ _
  unfold Surroundings.repeated
  dsimp only
  split
  · exact ⟨h.guards, hcount, hle, hfactor⟩
  · exact ⟨h.guards, hcount, hle, by rintro d ⟨⟩; exact h.factor _ ‹_›⟩
  · exact ⟨h.guards, hcount, hle, h.factor⟩

/-- Every step of a compiled program stands under what programs have. -/
theorem Plan.framed_compile {source : Bytes} {registry : Registry} {options : Options} {p : Plan}
    (h : Plan.compile source registry options = .ok p) : ∀ st ∈ p.steps, st.Framed := by
  obtain ⟨program, hparse, hplan⟩ := compile_eq_ok_iff.1 h
  refine Kept.plan (.forall ?_ (fun st o _ h => ⟨h.guards, h.count_pos, h.count_le, h.factor⟩)
    fun n factor st hfactor h => h.repeated hfactor) hparse hplan
  intro s sub base c spec source hs _ _
  exact ⟨hs.guards, by simp [Surroundings.stepOf], by simp [Surroundings.stepOf, maxRepeat],
    by simp [Surroundings.stepOf]⟩

end EffectChain
