import EffectChain.Proofs.Plan.Calls

/-!
# EffectChain.Proofs.Plan.Kinds

The kinds of the values that are written.

A variable that is given for an argument is followed to what it stands for, but only so far; what
is left is followed once more where a number or a truth value is read.

* `Surroundings.hasType_argument` — a value that is written has the type that is declared, unless it
  is read behind more variables than are followed;
* `explicit_hasType` — so have the arguments of all steps of a plan.
-/

namespace EffectChain

/-- The value is of the kind that is declared by a type. -/
def Value.HasType (v : Value) : ArgType → Prop
  | .float | .int => (∃ x, v = .scalar x) ∨ ∃ d, v = .dynamic d
  | .boolean => (∃ b, v = .boolean b) ∨ ∃ d, v = .dynamic d
  | .string => ∃ s, v = .text s
  | .vec3 => ∃ xs literal, v = .vector xs literal ∧ xs.length = 3
  | .color | .vec4 => ∃ xs literal, v = .vector xs literal ∧ xs.length = 4
  | .member => ∃ x, v = .scalar x
  | .surface => ∃ s, v = .ref s

namespace Checker

variable {k : Checker} {vars : Bindings} {a : ArgSpec} {e : Expr} {v : Value}

/-! ## numbers and truth values -/

/-- A number and a truth value are read as what they are, everything else changes. -/
theorem scalar_cases {min max : Option Float} {what : String}
    (h : (k.scalar vars e min max what).1 = some v) :
    (∃ x raw pos, vars.deref e = .number x raw pos ∧ v = .scalar x) ∨
      (∃ b pos, vars.deref e = .bool b pos ∧ v = .boolean b) ∨
      (∃ d, v = .dynamic d) ∧ (∀ x raw pos, vars.deref e ≠ .number x raw pos) ∧
        ∀ b pos, vars.deref e ≠ .bool b pos := by
  unfold scalar at h
  split at h
  · next x raw pos hd => exact .inl ⟨x, raw, pos, hd, (Option.some.inj h).symm⟩
  · next b pos hd => exact .inr (.inl ⟨b, pos, hd, (Option.some.inj h).symm⟩)
  · next source pos hd =>
      split at h
      · exact .inr (.inr ⟨⟨_, (Option.some.inj h).symm⟩, by simp [hd]⟩)
      · cases h
  · next name pos hd =>
      split at h
      · exact .inr (.inr ⟨⟨_, (Option.some.inj h).symm⟩, by simp [hd]⟩)
      · cases h
  · next c hd =>
      split at h
      · split at h
        · exact .inr (.inr ⟨⟨_, (Option.some.inj h).symm⟩, by simp [hd]⟩)
        · cases h
      · cases h
  · cases h

/-- A constant is a number. -/
theorem scalar_of_memberArg (h : (k.memberArg a e).1 = some v) : ∃ x, v = .scalar x := by
  unfold memberArg at h
  dsimp only at h
  split at h
  · exact ⟨_, (Option.some.inj h).symm⟩
  case h_2 | h_3 | h_4 =>
    split at h
    · exact ⟨_, (Option.some.inj h).symm⟩
    · cases h
  · cases h

/-- A name that is not looked up among constants is read further. -/
theorem read_of_not_member {name : String} (h : ¬ (!isStateField name && hasMembers a) = true) :
    isStateField name = true ∨ hasMembers a = false := by
  revert h
  cases isStateField name <;> cases hasMembers a <;> decide

/-- What is read for a number is one, or changes, unless a variable for a truth value is left. -/
theorem numberArg_iff (h : (k.numberArg vars a e).1 = some v) :
    ((∃ x, v = .scalar x) ∨ ∃ d, v = .dynamic d) ↔
      ¬ ∃ name pos, e = .ident name pos ∧ (isStateField name = true ∨ hasMembers a = false) ∧
        ∃ b pos', vars.deref e = .bool b pos' := by
  have hother : (∀ name pos, e ≠ .ident name pos) → ((∃ x, v = .scalar x) ∨ ∃ d, v = .dynamic d) →
      (((∃ x, v = .scalar x) ∨ ∃ d, v = .dynamic d) ↔
        ¬ ∃ name pos, e = .ident name pos ∧ (isStateField name = true ∨ hasMembers a = false) ∧
          ∃ b pos', vars.deref e = .bool b pos') := by
    rintro he hv
    refine iff_of_true hv ?_
    rintro ⟨name, pos, rfl, -⟩
    exact he name pos rfl
  have hscalar : ∀ {min max what}, (∀ name pos, e ≠ .ident name pos) → (∀ b pos, e ≠ .bool b pos) →
      (k.scalar vars e min max what).1 = some v → ((∃ x, v = .scalar x) ∨ ∃ d, v = .dynamic d) := by
    intro min max what he hb h
    rcases scalar_cases h with ⟨x, raw, pos, -, rfl⟩ | ⟨b, pos, hd, -⟩ | ⟨hd, -⟩
    · exact .inl ⟨x, rfl⟩
    · exact absurd (Bindings.deref_leaf he ▸ hd) (hb b pos)
    · exact .inr hd
  unfold numberArg at h
  dsimp only at h
  split at h
  · exact hother (by simp) (.inl ⟨_, (Option.some.inj h).symm⟩)
  case h_2 | h_3 | h_4 | h_5 | h_6 => cases h
  · next name pos =>
    by_cases hmember : (!isStateField name && hasMembers a) = true
    · rw [if_pos hmember] at h
      refine iff_of_true (.inl (scalar_of_memberArg h)) ?_
      rintro ⟨name', pos', heq, hread, -⟩
      cases heq
      simp_all
    · rw [if_neg hmember] at h
      have hread := read_of_not_member hmember
      rcases scalar_cases h with ⟨x, raw, pos', hd, rfl⟩ | ⟨b, pos', hd, rfl⟩ | ⟨hd, -, hbool⟩
      · refine iff_of_true (.inl ⟨x, rfl⟩) ?_
        rintro ⟨-, -, -, -, b, pos'', hb⟩
        rw [hd] at hb
        cases hb
      · refine iff_of_false (by simp) (not_not.2 ⟨name, pos, rfl, hread, b, pos', hd⟩)
      · refine iff_of_true (.inr hd) ?_
        rintro ⟨-, -, -, -, b, pos'', hb⟩
        exact hbool b pos'' hb
  · refine hother (by simp) (.inl ?_)
    split at h
    · exact scalar_of_memberArg h
    · split at h
      · exact ⟨_, (Option.some.inj h).symm⟩
      · cases h
  · split at h
    · exact hother (by simp) (hscalar (by simp) (by simp) h)
    · cases h
  · exact hother (by simp) (hscalar (by simp) (by simp) h)

/-- What is read for a truth value is one, or changes, unless a variable for a number is left. -/
theorem boolArg_iff (h : (k.boolArg vars a e).1 = some v) :
    ((∃ b, v = .boolean b) ∨ ∃ d, v = .dynamic d) ↔
      ¬ ∃ name pos, e = .ident name pos ∧ ∃ x raw pos', vars.deref e = .number x raw pos' := by
  unfold boolArg at h
  split at h
  · refine iff_of_true (.inl ⟨_, (Option.some.inj h).symm⟩) ?_
    rintro ⟨name, pos, heq, -⟩
    cases heq
  · refine iff_of_true (.inl ⟨_, (Option.some.inj h).symm⟩) ?_
    rintro ⟨name, pos, heq, -⟩
    cases heq
  · rcases scalar_cases h with ⟨x, raw, pos, hd, -⟩ | ⟨b, pos, hd, -⟩ | ⟨hd, -⟩
    · cases hd
    · cases hd
    · refine iff_of_true (.inr hd) ?_
      rintro ⟨name, pos, heq, -⟩
      cases heq
  · next name pos =>
    rcases scalar_cases h with ⟨x, raw, pos', hd, rfl⟩ | ⟨b, pos', hd, rfl⟩ | ⟨hd, hnumber, -⟩
    · exact iff_of_false (by simp) (not_not.2 ⟨name, pos, rfl, x, raw, pos', hd⟩)
    · refine iff_of_true (.inl ⟨b, rfl⟩) ?_
      rintro ⟨-, -, -, x, raw, pos'', hx⟩
      rw [hd] at hx
      cases hx
    · refine iff_of_true (.inr hd) ?_
      rintro ⟨-, -, -, x, raw, pos'', hx⟩
      exact hnumber x raw pos'' hx
  · cases h

/-! ## vectors -/

theorem length_numbers {es : List Expr} {xs : List Float} (h : numbers es = .ok xs) :
    xs.length = es.length := by
  fun_induction numbers es generalizing xs with
  | case1 =>
    cases h
    rfl
  | case2 x raw pos es ih =>
    obtain ⟨ys, hys, h⟩ := exists_of_bind h
    cases h
    rw [List.length_cons, List.length_cons, ih hys]
  | case3 => cases h

/-- A vector has as many components as its type has. -/
theorem length_vectorArg (h : (vectorArg a e).1 = some v) :
    ∃ xs literal, v = .vector xs literal ∧ xs.length = vectorSize a.type := by
  have hsize : vectorSize a.type = 3 ∨ vectorSize a.type = 4 := by
    unfold vectorSize
    split <;> simp
  unfold vectorArg at h
  dsimp only at h
  split at h
  · refine ⟨_, _, (Option.some.inj h).symm, ?_⟩
    rcases hsize with hsize | hsize <;> simp [Rgba.components, hsize]
  · next c =>
    split at h
    · cases h
    · generalize hcount : (if c.name = "vec4" then 4 else 3) = count at h
      have hsmall : 3 ≤ count := by
        rw [← hcount]
        split <;> omega
      split at h
      · cases h
      · next hargs =>
        simp only [ne_eq, gt_iff_lt, Bool.or_eq_true, decide_eq_true_eq, not_or, not_not, not_lt]
          at hargs
        split at h
        · cases h
        · next xs hxs =>
          refine ⟨_, _, (Option.some.inj h).symm, ?_⟩
          have hlength := length_numbers hxs
          split
          · rw [List.length_append, List.length_singleton]
            omega
          · omega
  · cases h

end Checker

/-! ## arguments -/

/-- A variable is left where the argument is read, behind those that are followed, and it stands for
a truth value where a number is declared, or the other way round. -/
def Bindings.Misread (vars : Bindings) (a : ArgSpec) (e : Expr) : Prop :=
  ∃ name pos, vars.deref e = .ident name pos ∧
    match a.type with
    | .float | .int => (isStateField name = true ∨ Checker.hasMembers a = false) ∧
        ∃ b pos', vars.deref (.ident name pos) = .bool b pos'
    | .boolean => ∃ x raw pos', vars.deref (.ident name pos) = .number x raw pos'
    | _ => False

/-- An argument that is misread goes through more variables than are followed. -/
theorem Bindings.Misread.bound {vars : Bindings} {a : ArgSpec} {e : Expr} (h : vars.Misread a e) :
    ∃ name pos, vars.follow maxAliases e = .ident name pos ∧ (vars.get? name).isSome := by
  obtain ⟨name, pos, hd, hread⟩ := h
  refine ⟨name, pos, hd, ?_⟩
  by_contra hnone
  have hself : vars.deref (.ident name pos) = .ident name pos := by
    unfold deref maxAliases follow
    simp [Option.not_isSome_iff_eq_none.1 hnone]
  rw [hself] at hread
  split at hread <;> simp_all

namespace Surroundings

variable {s : Surroundings} {sub : LowerChain}

/-- A value that is written has the type that is declared, unless it is misread. -/
theorem hasType_argument {base : Nat} {a : ArgSpec} {e : Expr} {v : Value}
    (h : (s.argument sub base a e).2 = some v) : v.HasType a.type ↔ ¬ s.vars.Misread a e := by
  unfold argument at h
  unfold Bindings.Misread
  dsimp only at h
  generalize s.vars.deref e = e' at h ⊢
  cases ht : a.type with
  | surface =>
      rw [ht] at h
      exact iff_of_true (ref_surfaceArg h) (by simp)
  | float | int =>
      rw [ht] at h
      refine (Checker.numberArg_iff h).trans
        (not_congr (exists_congr fun name => exists_congr fun pos => ?_))
      exact and_congr_right fun he => by rw [he]
  | boolean =>
      rw [ht] at h
      refine (Checker.boolArg_iff h).trans
        (not_congr (exists_congr fun name => exists_congr fun pos => ?_))
      exact and_congr_right fun he => by rw [he]
  | string =>
      rw [ht] at h
      dsimp only at h
      split at h
      · exact iff_of_true ⟨_, (Option.some.inj h).symm⟩ (by simp)
      · cases h
  | color | vec3 | vec4 =>
      rw [ht] at h
      have hlength := Checker.length_vectorArg h
      rw [ht] at hlength
      exact iff_of_true hlength (by simp)
  | member =>
      rw [ht] at h
      exact iff_of_true (Checker.scalar_of_memberArg h) (by simp)

end Surroundings

/-- A value that is written in a program has the type that is declared, exactly if it is not
misread, and then it stands behind more variables than are followed.  What is given for a surface
and is the result of a step is that of an earlier one. -/
theorem explicit_hasType {registry : Registry} {options options' : Options} {source : Bytes}
    {program : Program} {p : Plan} (hr : registry.ops.Built)
    (hparse : Program.parse options source = .ok program)
    (hplan : program.plan registry options' = .ok p) :
    ∀ st ∈ p.steps, ∃ (x : Site) (spec : OpSpec),
      x.In program { registry, suggest := options'.suggest } p.diagnostics ∧ x.Makes st ∧
      registry.ops.lookup? st.op = some spec ∧
      ∀ name ∈ st.explicit, ∃ a ∈ spec.args, a.name = name ∧ ∃ e v, x.given.get? name = some e ∧
        st.args.get? name = some v ∧ (v.HasType a.type ↔ ¬ x.s.vars.Misread a e) ∧
        (x.s.vars.Misread a e → ∃ other pos, x.s.vars.follow Bindings.maxAliases e =
          .ident other pos ∧
          (x.s.vars.get? other).isSome) ∧
        ∀ n, v = .ref ⟨.temp, n⟩ → n < st.temp ∧ ∃ t, p.steps[n]? = some t := by
  obtain ⟨roots, hforest⟩ := (kept_forest hr).plan hparse hplan
  intro st hst
  obtain ⟨x, hin, hmakes⟩ := Program.exists_site hplan hst
  obtain ⟨spec, hspec, hargs⟩ := hin.lookup
  refine ⟨x, spec, hin, hmakes, hmakes.op ▸ hspec, fun name hname => ?_⟩
  rw [hmakes.explicit] at hname
  obtain ⟨a, ha, rfl⟩ := Surroundings.mem_explicit hname
  obtain ⟨base, hvalue, hexplicit, -⟩ := hin.value hr ha
  obtain ⟨v, hv⟩ := Option.isSome_iff_exists.1 (hexplicit.1 hname)
  obtain ⟨e, he, harg⟩ := Option.bind_eq_some_iff.1 hv
  have hget : st.args.get? a.name = some v := by rw [hmakes.args, hvalue, hv, Option.some_or]
  refine ⟨a, hargs ▸ ha, rfl, e, v, he, hget, Surroundings.hasType_argument harg,
    Bindings.Misread.bound, ?_⟩
  rintro n rfl
  have huses : n ∈ st.uses := Step.mem_uses.2 (.inr (Table.mem_values_iff.2 ⟨a.name, hget⟩))
  obtain ⟨t, ht, rfl, hlt, -⟩ := hforest.linked hst huses
  obtain ⟨i, hi⟩ := List.mem_iff_getElem?.1 ht
  have htemp := hforest.temp_of_get? hi
  rw [Nat.zero_add] at htemp
  exact ⟨hlt, t, htemp ▸ hi⟩

/-- The chain that is mixed in is an argument of its type, the result of an earlier step. -/
theorem mixer_explicit_hasType : mixer.ops.Built ∧ Program.parse {} mixerSource = .ok mixerProgram ∧
    mixerProgram.plan mixer {} = .ok mixerPlan ∧
    ∀ st ∈ mixerPlan.steps, ∃ (x : Site) (spec : OpSpec),
      x.In mixerProgram { registry := mixer } mixerPlan.diagnostics ∧ x.Makes st ∧
      mixer.ops.lookup? st.op = some spec ∧
      ∀ name ∈ st.explicit, ∃ a ∈ spec.args, a.name = name ∧ ∃ e v, x.given.get? name = some e ∧
        st.args.get? name = some v ∧ (v.HasType a.type ↔ ¬ x.s.vars.Misread a e) ∧
        (x.s.vars.Misread a e → ∃ other pos, x.s.vars.follow Bindings.maxAliases e =
          .ident other pos ∧
          (x.s.vars.get? other).isSome) ∧
        ∀ n, v = .ref ⟨.temp, n⟩ → n < st.temp ∧ ∃ t, mixerPlan.steps[n]? = some t :=
  ⟨mixer_built, mixer_parse, mixer_plan, explicit_hasType mixer_built mixer_parse mixer_plan⟩

/-- An operation that begins chains and takes a number. -/
def inkwell : Registry where
  ops := {
    specs := .ofList [("ink", { name := "ink", args := [{ name := "flow" }] })]
    starters := ["ink"] }

/-- Variables that each stand for the one before, bound last to first; the first one is a truth
value, and the last one is given for a number. -/
def detour : Program where
  search := ["inkwell"]
  statements :=
    let names := "abcdefghijklmnopqrstuvwxyzABCDEFG".toList.map fun c => String.ofList [c]
    ((names.tail.zip names).reverse.map fun (new, old) => .bind new (.ident old {}) {}) ++
      [.bind "a" (.bool true {}) {},
        .run { calls := [{ name := "ink", kwargs := [⟨"flow", .ident "G" {}, {}⟩] }],
               out := some (.surface { kind := .output } {}) } {}]

-- The step has a truth value for its number, and nothing is reported.
example : (detour.plan inkwell {}).toOption.map (fun p => (p.diagnostics.length,
    p.steps.map fun st => (st.explicit, st.args.entries.map fun (name, v) => (name, v.shown)))) =
      some (0, [(["flow"], [("flow", "true")])]) := by
  decide +kernel

end EffectChain
