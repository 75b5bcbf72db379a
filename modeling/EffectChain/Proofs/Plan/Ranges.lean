import EffectChain.Proofs.Number.Value
import EffectChain.Proofs.Plan.Kinds

/-!
# EffectChain.Proofs.Plan.Ranges

The ranges of numeric arguments.

A number that is written is moved into the range of its argument, and so is a default; what changes
from frame to frame is moved when it is computed.  Some numbers are not moved: those that are named
by a constant of the argument, the zero of an argument without a default, and what stands behind
more variables than are followed.

* `ArgSpec.within_clamp`, `Dynamic.within_run?` — what is moved is in the range;
* `Checker.Unmoved` — the numbers that are not moved;
* `args_within` — every number in a plan is in its range or is not moved, and a literal that is
  moved is reported. -/

namespace EffectChain

/-! ## ranges -/

namespace ArgSpec

/-- The number is neither below nor above the range. -/
structure Within (a : ArgSpec) (x : Float) : Prop where
  above : ∀ lo, a.min = some lo → ¬ x < lo
  below : ∀ hi, a.max = some hi → ¬ x > hi

/-- The range has its bounds in order. -/
def Ranged (a : ArgSpec) : Prop := ∀ lo hi, a.min = some lo → a.max = some hi → lo ≤ hi

variable {a : ArgSpec} {x : Float}

/-- A number below the range becomes its least value, one above it its greatest. -/
theorem clamp_cases (a : ArgSpec) (x : Float) :
    (∃ lo, a.min = some lo ∧ x < lo ∧ a.clamp x = (lo, true)) ∨
      (∃ hi, a.max = some hi ∧ x > hi ∧ a.clamp x = (hi, true)) ∨ a.Within x ∧
      a.clamp x = (x, false) := by
  have hbelow : (∀ lo, a.min = some lo → ¬ x < lo) → a.clamp x = clamp.below a x →
      (∃ hi, a.max = some hi ∧ x > hi ∧ a.clamp x = (hi, true)) ∨ a.Within x ∧
          a.clamp x = (x, false) := by
    intro habove hclamp
    rw [hclamp, clamp.below]
    cases hmax : a.max with
    | none => exact .inr ⟨⟨habove, by simp [hmax]⟩, rfl⟩
    | some hi =>
        by_cases hx : x > hi
        · exact .inl ⟨hi, rfl, hx, if_pos hx⟩
        · exact .inr ⟨⟨habove, by simpa [hmax] using hx⟩, if_neg hx⟩
  cases hmin : a.min with
  | none => exact .inr (hbelow (by simp [hmin]) (by simp only [clamp, hmin]))
  | some lo =>
      by_cases hx : x < lo
      · exact .inl ⟨lo, rfl, hx, by simp only [clamp, hmin, if_pos hx]⟩
      · exact .inr (hbelow (by simpa [hmin] using hx) (by simp only [clamp, hmin, if_neg hx]))

/-- What is moved is in the range. -/
theorem within_clamp (ha : a.Ranged) (x : Float) : a.Within (a.clamp x).1 := by
  rcases a.clamp_cases x with ⟨lo, hmin, -, hclamp⟩ | ⟨hi, hmax, -, hclamp⟩ | ⟨hx, hclamp⟩
  · rw [hclamp]
    refine ⟨fun lo' h => ?_, fun hi h => Number.not_lt_of_le (ha lo hi hmin h)⟩
    obtain rfl := Option.some.inj (hmin.symm.trans h)
    exact Number.not_lt_self lo
  · rw [hclamp]
    refine ⟨fun lo h => Number.not_lt_of_le (ha lo hi h hmax), fun hi' h => ?_⟩
    obtain rfl := Option.some.inj (hmax.symm.trans h)
    exact Number.not_lt_self hi
  · rw [hclamp]
    exact hx

/-- A number has to be moved exactly if it is out of the range. -/
theorem clamp_snd (a : ArgSpec) (x : Float) : (a.clamp x).2 = true ↔ ¬ a.Within x := by
  rcases a.clamp_cases x with ⟨lo, hmin, hx, hclamp⟩ | ⟨hi, hmax, hx, hclamp⟩ | ⟨hx, hclamp⟩
  · simpa [hclamp] using fun h : a.Within x => h.above lo hmin hx
  · simpa [hclamp] using fun h : a.Within x => h.below hi hmax hx
  · simpa [hclamp] using hx

end ArgSpec

namespace Dynamic

variable {d : Dynamic} {a : ArgSpec}

/-- A number is moved between bounds in order as it is into a range. -/
theorem bound_eq_clamp (ha : a.Ranged) (hmin : d.min = a.min) (hmax : d.max = a.max) (x : Float) :
    d.bound x = (a.clamp x).1 := by
  unfold bound ArgSpec.clamp ArgSpec.clamp.below
  rw [hmin, hmax]
  cases hlo : a.min with
  | none =>
      cases a.max with
      | none => rfl
      | some hi =>
          dsimp only
          split <;> rfl
  | some lo =>
      cases hhi : a.max with
      | none =>
          dsimp only
          split <;> rfl
      | some hi =>
          have hbounds : ¬ lo > hi := Number.not_lt_of_le (ha lo hi hlo hhi)
          by_cases hx : x < lo
          · simp only [if_pos hx, if_neg hbounds]
          · simp only [if_neg hx]
            split <;> rfl

/-- What changes from frame to frame is in the range whenever it is a number. -/
theorem within_run? (ha : a.Ranged) (hmin : d.min = a.min) (hmax : d.max = a.max)
    {env : Env} {out : Datum} (hrun : d.run? env = some out) {x : Float}
    (hx : out.number? = some x) :
    (∃ b, out = .bool b) ∨ a.Within x := by
  have hbound : ∀ y, a.Within (d.bound y) := fun y => by
    rw [bound_eq_clamp ha hmin hmax]
    exact ArgSpec.within_clamp ha y
  obtain ⟨raw, -, hraw⟩ := Option.map_eq_some_iff.1 hrun
  split at hraw
  · exact .inl ⟨_, hraw.symm⟩
  · split at hraw
    · exact .inl ⟨_, hraw.symm⟩
    · split at hraw
      · subst hraw
        obtain rfl := Option.some.inj hx
        exact .inr (hbound _)
      · next hnone =>
          subst hraw
          simp [hnone] at hx

end Dynamic

/-! ## numbers that are not moved -/

namespace Checker

/-- Where a number is written or not, and is taken as it is. -/
inductive Unmoved (k : Checker) (vars : Bindings) (a : ArgSpec) : Option Expr → Float → Prop
  /-- Nothing is written for an argument without a default. -/
  | absent (h : a.default = .null) : Unmoved k vars a none 0
  /-- A constant of the argument is named, by one name or by a path. -/
  | named {e : Expr} {name : String} {pos : Pos} {x : Float} (he : vars.deref e = .ident name pos)
      (hfield : isStateField name = false) (ha : hasMembers a = true)
        (hx : k.member? a [name] = some x) :
      Unmoved k vars a (some e) x
  | path {e : Expr} {path : List String} {pos : Pos} {x : Float}
      (he : vars.deref e = .member path pos)
      (ha : hasMembers a = true) (hx : k.member? a path = some x) : Unmoved k vars a (some e) x
  /-- A variable is left behind those that are followed. -/
  | distant {e : Expr} {name raw : String} {pos pos' : Pos} {x : Float}
      (he : vars.deref e = .ident name pos)
      (ha : isStateField name = true ∨ hasMembers a = false)
        (hx : vars.deref (.ident name pos) = .number x raw pos') :
      Unmoved k vars a (some e) x

variable {k : Checker} {vars : Bindings} {a : ArgSpec} {e : Expr}

/-- A constant that is named is that of the argument. -/
theorem memberArg_ident {name : String} {pos : Pos} {x : Float} :
    (k.memberArg a (.ident name pos)).1 = some (.scalar x) ↔ k.member? a [name] = some x := by
  unfold memberArg
  dsimp only
  cases k.member? a [name] <;> simp [accepted]

/-- A member argument has the number its path names. -/
theorem memberArg_path {path : List String} {pos : Pos} {x : Float} :
    (k.memberArg a (.member path pos)).1 = some (.scalar x) ↔ k.member? a path = some x := by
  unfold memberArg
  dsimp only
  cases k.member? a path <;> simp [accepted]

/-- A number that is read is what is left of the variables. -/
theorem scalar_number {min max : Option Float} {what : String} {x : Float} :
    (k.scalar vars e min max what).1 = some (.scalar x) ↔ ∃ raw pos,
    vars.deref e = .number x raw pos := by
  constructor
  · intro h
    rcases scalar_cases h with ⟨y, raw, pos, hd, heq⟩ | ⟨b, pos, -, heq⟩ | ⟨⟨d, heq⟩, -⟩
    · obtain rfl := Value.scalar.inj heq
      exact ⟨raw, pos, hd⟩
    · cases heq
    · cases heq
  · rintro ⟨raw, pos, hd⟩
    unfold scalar
    rw [hd]
    rfl

/-- A number as it is written for an argument. -/
def asWritten (a : ArgSpec) (x : Float) : Float := if a.type = .int then Number.round x else x

/-- A literal is moved into the range, and it is reported if it has to be. -/
theorem numberArg_number (x : Float) (raw : String) (pos : Pos) :
    k.numberArg vars a (.number x raw pos) = (some (.scalar (a.clamp (asWritten a x)).1),
      if (a.clamp (asWritten a x)).2 then
        [{ problem := .outOfRange a.name (asWritten a x) (a.clamp (asWritten a x)).1, pos }]
      else []) := rfl

/-- A constant of no argument is moved into the range, and nothing is reported. -/
theorem numberArg_constant (ha : hasMembers a = false) {path : List String} {x : Float}
    (hx : k.registry.enums.lookup? path = some x) (pos : Pos) :
    k.numberArg vars a (.member path pos) = accepted (.scalar (a.clamp x).1) := by
  unfold numberArg
  dsimp only
  rw [if_neg (by simp [ha]), hx]

/-- A number that is written is in the range or is not moved. -/
theorem within_numberArg (ha : a.Ranged) {x : Float}
    (h : (k.numberArg vars a (vars.deref e)).1 = some (.scalar x)) :
    a.Within x ∨ k.Unmoved vars a (some e) x := by
  have hread : ∀ {e'} {min max : Option Float} {what}, vars.deref e = e' →
      (∀ name pos, e' ≠ .ident name pos) →
      (∀ x raw pos, e' ≠ .number x raw pos) →
          (k.scalar vars e' min max what).1 ≠ some (.scalar x) := by
    intro e' min max what _ hident hnumber h
    obtain ⟨raw, pos, hd⟩ := scalar_number.1 h
    rw [Bindings.deref_leaf hident] at hd
    exact hnumber x raw pos hd
  generalize he : vars.deref e = e' at h
  unfold numberArg at h
  dsimp only at h
  split at h
  · obtain rfl := Value.scalar.inj (Option.some.inj h)
    exact .inl (ArgSpec.within_clamp ha _)
  case h_2 | h_3 | h_4 | h_5 | h_6 => cases h
  · next name pos =>
    split at h
    · next hmember =>
      rw [Bool.and_eq_true, Bool.not_eq_true'] at hmember
      exact .inr (.named he hmember.1 hmember.2 (memberArg_ident.1 h))
    · next hread =>
      obtain ⟨raw, pos', hx⟩ := scalar_number.1 h
      exact .inr (.distant he (read_of_not_member hread) hx)
  · next path pos =>
    split at h
    · next hmember => exact .inr (.path he hmember (memberArg_path.1 h))
    · split at h
      · obtain rfl := Value.scalar.inj (Option.some.inj h)
        exact .inl (ArgSpec.within_clamp ha _)
      · cases h
  · split at h
    · exact absurd h (hread he (by simp) (by simp))
    · cases h
  · exact absurd h (hread he (by simp) (by simp))

/-- A number that is not moved is taken as it is. -/
theorem numberArg_unmoved {x : Float} (h : k.Unmoved vars a (some e) x) :
    (k.numberArg vars a (vars.deref e)).1 = some (.scalar x) := by
  cases h with
  | named he hfield ha hx =>
      rw [he, numberArg]
      dsimp only
      rw [if_pos (by simp [hfield, ha])]
      exact memberArg_ident.2 hx
  | path he ha hx =>
      rw [he, numberArg, if_pos ha]
      exact memberArg_path.2 hx
  | distant he ha hx =>
      rw [he, numberArg]
      dsimp only
      rw [if_neg (by rcases ha with ha | ha <;> simp [ha])]
      exact scalar_number.2 ⟨_, _, hx⟩

/-- The default of a numeric argument is moved into the range if it is a number. -/
theorem defaultValue_numeric (htype : a.type = .float ∨ a.type = .int) :
    k.defaultValue a = match a.default with
      | .null => some (.scalar 0)
      | d => match Value.ofDocument? d with
        | some (.scalar x) => some (.scalar (a.clamp x).1)
        | v => v := by
  obtain ⟨name, type, default, min, max, enum, choices⟩ := a
  rcases htype with rfl | rfl <;> cases default <;> rfl

/-- The default of a numeric argument is in the range, unless there is none. -/
theorem within_defaultValue (ha : a.Ranged) (htype : a.type = .float ∨ a.type = .int) {x : Float}
    (h : k.defaultValue a = some (.scalar x)) : a.Within x ∨ k.Unmoved vars a none x := by
  rw [defaultValue_numeric htype] at h
  split at h
  · next hnull =>
      obtain rfl := Value.scalar.inj (Option.some.inj h)
      exact .inr (.absent hnull)
  · split at h
    · obtain rfl := Value.scalar.inj (Option.some.inj h)
      exact .inl (ArgSpec.within_clamp ha _)
    · next hv => exact absurd h (hv x)

/-- The default of a numeric argument never changes. -/
theorem defaultValue_ne_dynamic (d : Dynamic) : k.defaultValue a ≠ some (.dynamic d) := by
  intro h
  rcases defaultValue_cases h with ⟨s, x, -, hx⟩ | ⟨s, -, -, hx⟩ | hplain
  · cases hx
  · cases hx
  · exact hplain

theorem defaultValue_absent (htype : a.type = .float ∨ a.type = .int) (h : a.default = .null) :
    k.defaultValue a = some (.scalar 0) := by
  rw [defaultValue_numeric htype, h]

end Checker

/-! ## the arguments of steps -/

/-- A number argument adds no steps. -/
theorem Surroundings.argument_numeric (s : Surroundings) (sub : LowerChain) (base : Nat)
    {a : ArgSpec} (htype : a.type = .float ∨ a.type = .int) (e : Expr) :
    s.argument sub base a e = (Emitted.notes (s.checker.numberArg s.vars a (s.vars.deref e)).2,
      (s.checker.numberArg s.vars a (s.vars.deref e)).1) := by
  unfold argument
  rcases htype with ht | ht <;> rw [ht]

open Checker in
/-- What a step has for a numeric argument, and what is reported of it. -/
structure Site.Ranges (x : Site) (a : ArgSpec) (st : Step) (ds : List Diagnostic) : Prop where
  /-- A number is in the range or is not moved. -/
  scalar : ∀ v, st.args.get? a.name = some (.scalar v) →
    a.Within v ∨ x.s.checker.Unmoved x.s.vars a none v ∨
      x.s.checker.Unmoved x.s.vars a (x.given.get? a.name) v
  /-- One that is not moved is there as it is. -/
  unmoved : ∀ v, x.s.checker.Unmoved x.s.vars a (x.given.get? a.name) v →
    st.args.get? a.name = some (.scalar v)
  /-- What changes is in the range in every frame in which it is a number. -/
  dynamic : ∀ d, st.args.get? a.name = some (.dynamic d) → ∀ env out y, d.run? env = some out →
    out.number? = some y → (∃ b, out = .bool b) ∨ a.Within y
  /-- A literal that is moved is reported. -/
  literal : ∀ e y raw pos, x.given.get? a.name = some e → x.s.vars.deref e = .number y raw pos →
    ¬ a.Within (asWritten a y) →
    st.args.get? a.name = some (.scalar (a.clamp (asWritten a y)).1) ∧
      { problem := .outOfRange a.name (asWritten a y) (a.clamp (asWritten a y)).1, pos } ∈ ds
  /-- A constant of no argument is moved, and nothing is reported. -/
  constant : ∀ e path pos y, x.given.get? a.name = some e → x.s.vars.deref e = .member path pos →
    hasMembers a = false → x.s.checker.registry.enums.lookup? path = some y →
    st.args.get? a.name = some (.scalar (a.clamp y).1) ∧ ∀ sub base,
      (x.s.argument sub base a e).1.problems = []

/-- A number of a step is in the range of its argument, whether it was written or is a default, if
it is not one of those that are not moved; a literal that is moved is reported, and what changes is
in the range in every frame. -/
theorem args_within {program : Program} {registry : Registry} {options : Options} {p : Plan}
    (hr : registry.ops.Built)
    (hranged : ∀ name spec, registry.ops.lookup? name = some spec → ∀ a ∈ spec.args,
      a.type = .float ∨ a.type = .int → a.Ranged)
    (hplan : program.plan registry options = .ok p) :
    ∀ st ∈ p.steps, ∃ (x : Site) (spec : OpSpec),
      x.In program { registry, suggest := options.suggest } p.diagnostics ∧ x.Makes st ∧
      registry.ops.lookup? st.op = some spec ∧
      ∀ a ∈ spec.args, a.type = .float ∨ a.type = .int → x.Ranges a st p.diagnostics := by
  intro st hst
  obtain ⟨x, hin, hmakes⟩ := Program.exists_site hplan hst
  obtain ⟨spec, hspec, hargs⟩ := hin.lookup
  refine ⟨x, spec, hin, hmakes, hmakes.op ▸ hspec, fun a ha htype => ?_⟩
  have hbounds := hranged _ spec hspec a ha htype
  obtain ⟨base, hvalue, -, hproblems⟩ := hin.value hr (hargs ▸ ha)
  rw [← hmakes.args, ← hin.checker] at hvalue
  -- what is written is read as a number
  have hread : ∀ e, x.given.get? a.name = some e →
      x.written? base a = (x.s.checker.numberArg x.s.vars a (x.s.vars.deref e)).1 := by
    intro e he
    rw [Site.written?, Surroundings.written?, he, Option.bind_some,
      Surroundings.argument_numeric _ _ _ htype]
  have hwritten : ∀ {v}, x.written? base a = some v →
      ∃ e, x.given.get? a.name = some e ∧ (x.s.checker.numberArg x.s.vars a (x.s.vars.deref e)).1 =
          some v := by
    intro v hv
    obtain ⟨e, he, -⟩ := Option.bind_eq_some_iff.1 hv
    exact ⟨e, he, by rw [← hread e he, hv]⟩
  constructor
  · intro v hv
    rw [hvalue, Option.or_eq_some_iff] at hv
    rcases hv with hv | ⟨-, hv⟩
    · obtain ⟨e, he, hnumber⟩ := hwritten hv
      rw [he]
      exact (Checker.within_numberArg hbounds hnumber).imp_right .inr
    · exact (Checker.within_defaultValue hbounds htype hv).imp_right .inl
  · intro v hv
    cases hget : x.given.get? a.name with
    | none =>
        rw [hget] at hv
        cases hv with
        | absent hnull =>
            have hnone : x.written? base a = none := by
              rw [Site.written?, Surroundings.written?, hget, Option.bind_none]
            rw [hvalue, hnone, Option.none_or, Checker.defaultValue_absent htype hnull]
    | some e =>
        rw [hget] at hv
        rw [hvalue, hread e hget, Checker.numberArg_unmoved hv, Option.some_or]
  · intro d hd env out y hrun hy
    rw [hvalue, Option.or_eq_some_iff] at hd
    rcases hd with hd | ⟨-, hd⟩
    · obtain ⟨e, -, hnumber⟩ := hwritten hd
      obtain ⟨-, -, hmin, hmax⟩ := Checker.numeric_numberArg hnumber
      exact Dynamic.within_run? hbounds hmin hmax hrun hy
    · exact absurd hd (Checker.defaultValue_ne_dynamic d)
  · intro e y raw pos he hd hout
    have hclamp := (a.clamp_snd _).2 hout
    refine ⟨by rw [hvalue, hread e he, hd, Checker.numberArg_number, Option.some_or],
      hproblems e he ?_⟩
    rw [Surroundings.argument_numeric _ _ _ htype, hd, Checker.numberArg_number, if_pos hclamp]
    exact List.mem_singleton_self _
  · intro e path pos y he hd hmembers hlookup
    refine ⟨by rw [hvalue, hread e he, hd, Checker.numberArg_constant hmembers hlookup]; rfl,
      fun sub base => ?_⟩
    rw [Surroundings.argument_numeric _ _ _ htype, hd, Checker.numberArg_constant hmembers hlookup]
    rfl

/-! ## a choice out of the range -/

/-- An operation that begins chains; its number may be chosen by a name. -/
def lounge : Registry where
  ops := {
    specs := .ofList [("glow", { name := "glow", args := [
      { name := "level", min := some 0, max := some 1, choices := .ofList [("loud", 5)] }] })]
    starters := ["glow"] }

theorem lounge_built : lounge.ops.Built := by
  have hglow : ({} : Operations).register "glow" [
      { name := "level", min := some 0, max := some 1, choices := .ofList [("loud", 5)] }] =
        .ok _ := rfl
  exact .markStarters (.register .empty hglow) ["glow"]

theorem lounge_ranged (name : String) (spec : OpSpec) (h : lounge.ops.lookup? name = some spec) :
    ∀ a ∈ spec.args, a.type = .float ∨ a.type = .int → a.Ranged := by
  have hentries : lounge.ops.specs.entries = [("glow", { name := "glow", args := [
      { name := "level", min := some 0, max := some 1, choices := .ofList [("loud", 5)] }] })] :=
        rfl
  have hmem := Table.mem_entries_iff.2 h
  rw [hentries, List.mem_singleton] at hmem
  obtain ⟨-, rfl⟩ := Prod.mk.inj hmem
  intro a ha _
  obtain rfl := List.mem_singleton.1 ha
  intro lo hi hlo hhi
  obtain rfl := Option.some.inj hlo
  obtain rfl := Option.some.inj hhi
  decide

/-- The number is chosen by its name. -/
def loud : Program where
  search := ["lounge"]
  statements := [.run { calls := [{ name := "glow", kwargs := [⟨"level", .ident "loud" {}, {}⟩] }],
                        out := some (.surface { kind := .output } {}) } {}]

def loudPlan : Plan where
  search := ["lounge"]
  steps := [{ op := "glow", args := .ofList [("level", .scalar 5)], explicit := ["level"],
              out := some { kind := .output } }]

theorem loud_plan : loud.plan lounge {} = .ok loudPlan := rfl

/-- The choice is above the range, where it is not moved, and nothing is reported. -/
theorem loud_not_moved : lounge.ops.Built ∧ loud.plan lounge {} = .ok loudPlan ∧
    (∀ st ∈ loudPlan.steps, ∃ (x : Site) (spec : OpSpec),
      x.In loud { registry := lounge } loudPlan.diagnostics ∧ x.Makes st ∧
      lounge.ops.lookup? st.op = some spec ∧
      ∀ a ∈ spec.args, a.type = .float ∨ a.type = .int → x.Ranges a st loudPlan.diagnostics) ∧
    loudPlan.diagnostics = [] ∧ (5 : Float) > 1 :=
  ⟨lounge_built, loud_plan, args_within lounge_built lounge_ranged loud_plan, rfl, by decide⟩

end EffectChain
