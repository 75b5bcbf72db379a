import EffectChain.Proofs.Plan.Canonical
import EffectChain.Proofs.Program.Outcome
import EffectChain.Proofs.Program.Spelling

/-!
# EffectChain.Proofs.Plan.Provenance

Where the steps of a plan come from.

The value of an argument is its default or what is written for it, and fits it in both
cases (`Surroundings.fits_argument`, `Checker.fits_defaultValue`).  So the step of a call is one
of the registry (`Surroundings.made_stepOf`); chains, conditions and loops keep what holds of such
steps (`Surroundings.kept_block`), and so the steps of a plan that is compiled are calls of the
registry (`Plan.made_compile`).
-/

namespace EffectChain

open Emitted

/-! ## the values of arguments -/

namespace Value

/-- Numbers and truth values, and values that change within the bounds given. -/
def Numeric (min max : Option Float) : Value → Prop
  | .scalar _ | .boolean _ => True
  | .dynamic d => d.signal.Sound ∧ d.negated = false ∧ d.min = min ∧ d.max = max
  | _ => False

/-- Values that a document spells. -/
def Plain : Value → Prop
  | .scalar _ | .boolean _ | .text _ => True
  | .vector _ literal => literal = ""
  | _ => False

/-- A number within the bounds of a parameter fits it. -/
theorem Numeric.fits {min max : Option Float} {a : ArgSpec} {v : Value} (h : v.Numeric min max)
    (hbounds : (min, max) = a.bounds) : v.Fits a := by
  cases v with
  | scalar | boolean => trivial
  | dynamic d =>
      obtain ⟨hsound, hnegated, rfl, rfl⟩ := h
      exact ⟨hsound, hnegated, hbounds⟩
  | _ => cases h

/-- A plain value fits every parameter. -/
theorem Plain.fits {a : ArgSpec} {v : Value} (h : v.Plain) : v.Fits a := by
  cases v with
  | vector => exact .inl h
  | scalar | boolean | text => trivial
  | _ => cases h

end Value

namespace Checker

variable {k : Checker} {a : ArgSpec} {v : Value}

/-- A closure compiles to a sound signal. -/
theorem sound_closure? {source : String} {d : Dynamic} (h : Dynamic.closure? source = some d) :
    d.signal.Sound ∧ d.negated = false := by
  unfold Dynamic.closure? at h
  obtain ⟨f, hf, rfl⟩ := Option.map_eq_some_iff.1 h
  exact ⟨hf, rfl⟩

theorem wave_setWaveField (o : Oscillator) (field : String) (x : Float) :
    (setWaveField o field x).wave = o.wave := by
  unfold setWaveField
  split <;> rfl

/-- Setting a field keeps the wave of an oscillator. -/
theorem wave_waveArgument {name field : String} {o o' : Oscillator} {e : Expr}
    {ds : List Diagnostic} (h : waveArgument name o field e = (some o', ds)) :
    o'.wave = o.wave := by
  unfold waveArgument at h
  split at h
  · obtain rfl := Option.some.inj (Prod.mk.inj h).1
    exact wave_setWaveField _ _ _
  · cases h

/-- Positional arguments keep the wave of an oscillator. -/
theorem wave_wavePositional {name : String} {fields : List String} {es : List Expr}
    {o o' : Oscillator} {ds : List Diagnostic}
    (h : wavePositional name o fields es = (some o', ds)) : o'.wave = o.wave := by
  fun_induction wavePositional name o fields es with
  | case1 => rw [Option.some.inj (Prod.mk.inj h).1]
  | case2 => cases h
  | case3 o f fs e es o₁ ds₁ hfirst ih => exact (ih h).trans (wave_waveArgument hfirst)
  | case4 o f fs e es hnone => exact absurd h (hnone _ _)

/-- Keyword arguments keep the wave of an oscillator. -/
theorem wave_waveKeywords {name : String} {kws : List Keyword} {o o' : Oscillator}
    {ds : List Diagnostic} (h : k.waveKeywords name o kws = (some o', ds)) : o'.wave = o.wave := by
  fun_induction waveKeywords k name o kws with
  | case1 => rw [Option.some.inj (Prod.mk.inj h).1]
  | case2 o kw kws hfield o₁ ds₁ hfirst ih => exact (ih h).trans (wave_waveArgument hfirst)
  | case3 o kw kws hfield hnone => exact absurd h (hnone _ _)
  | case4 => cases h

/-- The wave of an oscillator is the one that is called. -/
theorem wave_oscillator {c : Call} {o : Oscillator} {ds : List Diagnostic}
    (h : k.oscillator c = (some o, ds)) : o.wave = .ofName c.name := by
  unfold oscillator at h
  split at h
  · rename_i o₁ ds₁ hfirst
    exact (wave_waveKeywords h).trans (wave_wavePositional hfirst)
  · rename_i hnone
    exact absurd h (hnone _ _)

/-- The name of a wave call is one of the waves. -/
theorem wave_mem_of_isWaveCall {c : Call} (h : isWaveCall c = true) :
    Wave.ofName c.name ∈ Wave.all := by
  rw [isWaveCall, Bool.and_eq_true] at h
  obtain ⟨w, hw⟩ := Option.isSome_iff_exists.1 h.1
  rw [Wave.ofName, hw, Option.getD_some]
  exact List.mem_of_find?_eq_some hw

/-- A scalar is a constant, or changes and has the bounds given. -/
theorem numeric_scalar {vars : Bindings} {e : Expr} {min max : Option Float} {what : String}
    (h : (k.scalar vars e min max what).1 = some v) : v.Numeric min max := by
  unfold scalar at h
  split at h
  · cases h
    trivial
  · cases h
    trivial
  · split at h
    · rename_i d hd
      obtain ⟨hsound, hnegated⟩ := sound_closure? hd
      cases h
      exact ⟨hsound, hnegated, rfl, rfl⟩
    · cases h
  · split at h
    · rename_i hfield
      cases h
      exact ⟨hfield, rfl, rfl, rfl⟩
    · cases h
  · split at h
    · rename_i c hwave
      split at h
      · rename_i o ds ho
        cases h
        refine ⟨?_, rfl, rfl, rfl⟩
        change o.wave ∈ Wave.all
        rw [wave_oscillator ho]
        exact wave_mem_of_isWaveCall hwave
      · cases h
    · cases h
  · cases h

/-- The value of a constant is a number. -/
theorem numeric_memberArg {e : Expr} {min max : Option Float} (h : (k.memberArg a e).1 = some v) :
    v.Numeric min max := by
  unfold memberArg at h
  dsimp only at h
  split at h
  · cases h
    trivial
  case h_2 | h_3 | h_4 =>
    split at h <;> cases h
    trivial
  · cases h

/-- A number argument is a number within its bounds. -/
theorem numeric_numberArg {vars : Bindings} {e : Expr} (h : (k.numberArg vars a e).1 = some v) :
    v.Numeric a.min a.max := by
  unfold numberArg at h
  dsimp only at h
  split at h
  · cases h
    trivial
  case h_2 | h_3 | h_4 | h_5 | h_6 => cases h
  · split at h
    · exact numeric_memberArg h
    · exact numeric_scalar h
  · split at h
    · exact numeric_memberArg h
    · split at h <;> cases h
      trivial
  · split at h
    · exact numeric_scalar h
    · cases h
  · exact numeric_scalar h

/-- A switch argument is a number or a signal. -/
theorem numeric_boolArg {vars : Bindings} {e : Expr} (h : (k.boolArg vars a e).1 = some v) :
    v.Numeric none none := by
  unfold boolArg at h
  split at h
  · cases h
    trivial
  · cases h
    trivial
  · exact numeric_scalar h
  · exact numeric_scalar h
  · cases h

/-- A vector argument fits its parameter. -/
theorem fits_vectorArg {e : Expr} (he : e.Sound) (h : (vectorArg a e).1 = some v) : v.Fits a := by
  unfold vectorArg at h
  dsimp only at h
  split at h
  · rename_i raw rgba pos
    obtain rfl := Option.some.inj h
    obtain ⟨hraw, rfl⟩ := (Expr.sound_iff _).1 he |>.1
    dsimp only [Value.Fits]
    split
    · exact .inr ⟨hraw.imp fun _ => And.left, hraw.isClear, rfl⟩
    · exact .inl rfl
  · split at h
    · cases h
    · generalize (if _ = "vec4" then 4 else 3) = size at h
      split at h
      · cases h
      · split at h
        · cases h
        · obtain rfl := Option.some.inj h
          exact .inl rfl
  · cases h

/-- A value read from a document is plain. -/
theorem plain_ofDocument? {d : Document} (h : Value.ofDocument? d = some v) : v.Plain := by
  unfold Value.ofDocument? at h
  split at h
  · cases h
    trivial
  · cases h
    trivial
  · obtain ⟨xs, -, rfl⟩ := Option.map_eq_some_iff.1 h
    rfl
  · obtain ⟨x, -, rfl⟩ := Option.map_eq_some_iff.1 h
    trivial

/-- What stands for a default that is neither a surface nor the name of a constant. -/
theorem plain_default (h : (match a.default with
      | .null =>
        match a.type with
        | .boolean => some (Value.boolean false)
        | .string => some (.text [])
        | _ => some (.scalar 0)
      | d =>
        match Value.ofDocument? d with
        | some (.scalar x) => some (.scalar (a.clamp x).1)
        | v => v) = some v) : v.Plain := by
  split at h
  · split at h <;> cases h <;> trivial
  · split at h
    · cases h
      trivial
    · exact plain_ofDocument? h

/-- What stands for the default of a vector that is no hex color. -/
theorem plain_vectorDefault {none : List Float} (h : (match Value.ofDocument? a.default with
      | some (.vector xs l) => some (Value.vector xs l)
      | _ => some (.vector none "")) = some v) : v.Plain := by
  split at h
  · rename_i hd
    rw [h] at hd
    exact plain_ofDocument? hd
  · cases h
    rfl

/-- A default is a surface, a hex color or plain. -/
theorem defaultValue_cases (h : k.defaultValue a = some v) :
    (∃ s x, Surface.ofName? s = some x ∧ v = .ref x) ∨
      (∃ s, a.default = .text s ∧ s.startsWith "#" = true ∧
        v = .vector ((Parser.colorOf s).components (vectorSize a.type))
          (if a.type = .color then s else "")) ∨
      v.Plain := by
  unfold defaultValue at h
  dsimp only at h
  split at h
  · split at h
    · obtain ⟨x, hx, rfl⟩ := Option.map_eq_some_iff.1 h
      exact .inl ⟨_, x, hx, rfl⟩
    · cases h
  · split at h
    · cases h
      exact .inr (.inr trivial)
    · exact .inr (.inr (plain_default h))
  case h_3 ht | h_4 ht | h_5 ht =>
    split at h
    · rename_i s hs
      split at h
      · rename_i hsign
        cases h
        exact .inr (.inl ⟨s, hs, hsign, by simp [ht]⟩)
      · exact .inr (.inr (plain_vectorDefault h))
    · exact .inr (.inr (plain_vectorDefault h))
  · exact .inr (.inr (plain_default h))

/-- A default fits its argument if a color in it can be told from the fields around it. -/
theorem fits_defaultValue (hclear : ∀ s, a.default = .text s → Fields.isClear s.toList = true)
    (h : k.defaultValue a = some v) : v.Fits a := by
  obtain ⟨s, x, -, rfl⟩ | ⟨s, hs, hsign, rfl⟩ | hplain := defaultValue_cases h
  · trivial
  · obtain ⟨cs, hcs⟩ := String.startsWith_string_iff.1 hsign
    dsimp only [Value.Fits]
    split
    · exact .inr ⟨⟨cs, hcs.symm⟩, hclear s hs, rfl⟩
    · exact .inl rfl
  · exact hplain.fits

end Checker

/-! ## variables -/

namespace Bindings

variable {vars : Bindings}

/-- What variables stand for is sound. -/
def Sound (vars : Bindings) : Prop := ∀ e ∈ vars.values, e.Sound

theorem Sound.deref (h : vars.Sound) {e : Expr} (he : e.Sound) : (vars.deref e).Sound := by
  rcases vars.deref_cases e with heq | hmem
  · rwa [heq]
  · exact h _ hmem

theorem Sound.get? (h : vars.Sound) {name : String} {e : Expr} (he : vars.get? name = some e) :
    e.Sound :=
  h e (Table.mem_values_iff.2 ⟨name, he⟩)

/-- A call expanded from sound bindings is sound. -/
theorem Sound.expandCall (h : vars.Sound) {c c' : Call} (hc : c.Sound)
    (hc' : c' ∈ (vars.expandCall c).1) :
    c'.Sound := by
  cases mem_expandCall hc' with
  | self => exact hc
  | renamed _ hv => exact ⟨((Expr.sound_iff _).1 (h.get? hv)).1, hc.written⟩
  | @qualified path _ _ _ hv =>
      refine ⟨?_, hc.written⟩
      rcases List.mem_cons.1 (@List.getLastD_mem_cons _ path "") with hlast | hlast
      · rw [hlast]
        exact List.not_mem_nil
      · exact ((Expr.sound_iff _).1 (h.get? hv)).1 _ hlast
  | @merged base _ hv =>
      have hbase := (Expr.sound_call base).1 (h.get? hv)
      exact ⟨hbase.name, fun w hw => (written_mergeCall hw).elim (hbase.written w) (hc.written w)⟩
  | spliced _ hv hmem => exact ((Expr.sound_chain _).1 (h.get? hv)).calls c' hmem

/-- Every call of a chain expanded from sound bindings is sound. -/
theorem Sound.expandChain (h : vars.Sound) {ch : Chain} (hch : ∀ c ∈ ch.calls, c.Sound) {c : Call}
    (hc : c ∈ (vars.expandChain ch).1) : c.Sound := by
  rcases mem_expandChain hc with hc | ⟨c', hc', hc⟩
  · cases mem_expandBase hc with
    | call _ hv => exact (Expr.sound_call c).1 (h.get? hv)
    | spliced _ hv hmem => exact ((Expr.sound_chain _).1 (h.get? hv)).calls c hmem
    | named _ hv => exact ⟨((Expr.sound_iff _).1 (h.get? hv)).1, by simp [CallOf.written]⟩
  · exact h.expandCall (hch c' hc') hc

/-- A sound expression may be bound. -/
theorem Sound.insert (h : vars.Sound) {name : String} {e : Expr} (he : e.Sound) :
    Sound (Table.insert vars name e) := by
  intro x hx
  obtain ⟨k, hk⟩ := Table.mem_values_iff.1 hx
  rw [Table.get?_insert] at hk
  split at hk
  · rwa [← Option.some.inj hk]
  · exact h x (Table.mem_values_iff.2 ⟨k, hk⟩)

/-- Binding a sound expression keeps the bindings sound. -/
theorem Sound.bind (h : vars.Sound) (name : String) {value : Expr} (hvalue : value.Sound) :
    (vars.bind name value).1.Sound := by
  unfold Bindings.bind
  split
  · rename_i other pos
    refine h.insert ?_
    cases hget : vars.get? other with
    | none => exact hvalue
    | some e => exact h e (Table.mem_values_iff.2 ⟨other, hget⟩)
  · rename_i c
    have hcalls : ∀ c' ∈ (vars.expandCall c).1, c'.Sound := fun c' =>
      h.expandCall ((Expr.sound_call c).1 hvalue)
    split
    · rename_i c' ds heq
      rw [heq] at hcalls
      exact h.insert ((Expr.sound_call c').2 (hcalls c' (by simp)))
    · rename_i calls ds _ heq
      rw [heq] at hcalls
      exact h.insert ((Expr.sound_chain _).2 ⟨hcalls, nofun⟩)
  · rename_i ch
    exact h.insert
      ((Expr.sound_chain _).2 ⟨fun c => h.expandChain ((Expr.sound_chain ch).1 hvalue).calls,
        nofun⟩)
  · exact h.insert hvalue

end Bindings

/-- A closure of a scalar is one that something ends, if the expression is sound. -/
theorem Checker.closed_scalar {k : Checker} {vars : Bindings} (hvars : vars.Sound) {e : Expr}
    (he : e.Sound) {min max : Option Float} {what : String} {d : Dynamic}
    (h : (k.scalar vars e min max what).1 = some (.dynamic d)) :
    d.signal.Closed := by
  have hsound := hvars.deref he
  unfold scalar at h
  split at h
  · cases h
  · cases h
  · rename_i source pos heq
    split at h
    · rename_i d' hd
      cases h
      obtain ⟨f, -, rfl⟩ := Option.map_eq_some_iff.1 hd
      rw [heq] at hsound
      exact ((Expr.sound_iff _).1 hsound).1
    · cases h
  · split at h <;> cases h
    trivial
  · split at h
    · split at h <;> cases h
      trivial
    · cases h
  · cases h

theorem Checker.bare_scalar {k : Checker} {vars : Bindings} (hvars : vars.Sound) {e : Expr}
    (he : e.Sound) {what : String} {d : Dynamic} {ds : List Diagnostic}
    (h : k.scalar vars e none none what = (some (.dynamic d), ds)) :
    d.Bare ∧ d.negated = false := by
  have hvalue := congrArg Prod.fst h
  obtain ⟨hsound, hnegated, hmin, hmax⟩ := numeric_scalar hvalue
  exact ⟨⟨hsound, closed_scalar hvars he hvalue, hmin, hmax⟩, hnegated⟩

/-! ## calls and chains -/

namespace Surroundings

variable {s : Surroundings} {sub : LowerChain}

/-- What is given for a surface is one. -/
theorem ref_surfaceArg {base : Nat} {a : ArgSpec} {e : Expr} {v : Value}
    (h : (surfaceArg sub base a e).2 = some v) : ∃ x, v = .ref x := by
  unfold surfaceArg at h
  dsimp only at h
  split at h
  · exact ⟨_, (Option.some.inj h).symm⟩
  · split at h
    · exact ⟨_, (Option.some.inj h).symm⟩
    · cases h
  · obtain ⟨t, -, rfl⟩ := Option.map_eq_some_iff.1 h
    exact ⟨_, rfl⟩
  · obtain ⟨t, -, rfl⟩ := Option.map_eq_some_iff.1 h
    exact ⟨_, rfl⟩
  · cases h
  · cases h

/-- The value of an argument that is written fits it. -/
theorem fits_argument (hvars : s.vars.Sound) {base : Nat} {a : ArgSpec} {e : Expr} (he : e.Sound)
    {v : Value} (h : (s.argument sub base a e).2 = some v) : v.Fits a := by
  have hsound := hvars.deref he
  unfold argument at h
  generalize s.vars.deref e = e at h hsound
  cases ht : a.type with
  | surface =>
    rw [ht] at h
    obtain ⟨x, rfl⟩ := ref_surfaceArg h
    trivial
  | float | int =>
    rw [ht] at h
    exact (Checker.numeric_numberArg h).fits (by simp [ArgSpec.bounds, ht])
  | boolean =>
    rw [ht] at h
    exact (Checker.numeric_boolArg h).fits (by simp [ArgSpec.bounds, ht])
  | string =>
    rw [ht] at h
    dsimp only at h
    split at h
    · obtain rfl := Option.some.inj h
      trivial
    · cases h
  | color | vec3 | vec4 =>
    rw [ht] at h
    exact Checker.fits_vectorArg hsound h
  | member =>
    rw [ht] at h
    exact (Checker.numeric_memberArg h).fits rfl

/-- No value is written for an argument: nothing is, or what is written was refused and
came to `out`. -/
def Unwritten (s : Surroundings) (sub : LowerChain) (base : Nat) (given : Table Expr) (a : ArgSpec)
    (out : Emitted) : Prop :=
  given.get? a.name = none ∧ out = {} ∨ ∃ e, given.get? a.name = some e ∧ s.argument sub base a e =
    (out, none)

/-- Taking an argument adds what is written for it, else its default if it has one. -/
theorem take_cases (s : Surroundings) (sub : LowerChain) (base : Nat) (given : Table Expr)
    (r : Arguments) (a : ArgSpec) :
    (∃ e out v, given.get? a.name = some e ∧ s.argument sub (base + r.out.steps.length) a e =
      (out, some v) ∧
      Arguments.take s sub base given r a =
        { out := r.out ++ out, values := r.values.insert a.name v,
          explicit := r.explicit ++ [a.name] }) ∨
    ∃ out, Unwritten s sub (base + r.out.steps.length) given a out ∧
      ((∃ v, s.checker.defaultValue a = some v ∧ Arguments.take s sub base given r a =
          { r with out := r.out ++ out, values := r.values.insert a.name v }) ∨
        Arguments.take s sub base given r a = { r with out := r.out ++ out }) := by
  have hsame : r.out ++ ({} : Emitted) = r.out := by
    change Emitted.append _ _ = _
    simp [Emitted.append]
  unfold Arguments.take
  dsimp only
  cases hget : given.get? a.name with
  | none =>
      refine .inr ⟨{}, .inl ⟨hget, rfl⟩, ?_⟩
      rw [hsame]
      cases hv : s.checker.defaultValue a with
      | none => exact .inr rfl
      | some v => exact .inl ⟨v, rfl, rfl⟩
  | some e =>
      dsimp only
      rcases harg : s.argument sub (base + r.out.steps.length) a e with ⟨out, v | v⟩
      · refine .inr ⟨out, .inr ⟨e, hget, harg⟩, ?_⟩
        cases hv : s.checker.defaultValue a with
        | none => exact .inr rfl
        | some v => exact .inl ⟨v, rfl, rfl⟩
      · exact .inl ⟨e, out, v, rfl, harg, rfl⟩

/-- The arguments of a call. -/
def arguments (s : Surroundings) (sub : LowerChain) (base : Nat) (c : Call) (spec : OpSpec) :
    Arguments :=
  spec.args.foldl (Arguments.take s sub base (s.given c spec))
    { out := notes ((positional spec.name {} spec.args c.args).2 ++
        (keywords s.checker spec spec.name (positional spec.name {} spec.args c.args).1
          c.kwargs).2) }

/-- The step of a call. -/
def stepOf (s : Surroundings) (sub : LowerChain) (base : Nat) (c : Call) (spec : OpSpec)
    (source : Option Nat) : Step :=
  let r := s.arguments sub base c spec
  { op := spec.name, args := r.values, explicit := r.explicit, source,
    temp := base + r.out.steps.length, ns := c.ns, guards := s.guards, pos := c.pos }

theorem call_eq (s : Surroundings) (sub : LowerChain) (base : Nat) (c : Call) (spec : OpSpec)
    (source : Option Nat) :
    s.call sub base c spec source =
      ((s.arguments sub base c spec).out ++ { steps := [s.stepOf sub base c spec source] },
        (s.stepOf sub base c spec source).temp) := rfl

/-- What is given for the arguments of a call is written in it. -/
theorem sound_given {c : Call} (hc : c.Sound) (spec : OpSpec) :
    Bindings.Sound (s.given c spec) := by
  intro e he
  obtain ⟨k, hk⟩ := Table.mem_values_iff.1 he
  exact hc.written e (written_given hk)

end Surroundings

/-! ### what holds of the step of every call -/

/-- The surfaces that a chain can be written to. -/
def Surface.Writable (o : Surface) : Prop := o.kind = .output ∨ o.kind = .feedback

/-- The target of an `out` can be written to. -/
theorem Surroundings.writable_outTarget {vars : Bindings} {e : Expr} {o : Surface}
    (h : (outTarget vars e).1 = some o) : o.Writable := by
  unfold outTarget at h
  split at h
  · split at h
    · next hkind =>
        obtain rfl := Option.some.inj h
        simpa [Surface.Writable] using hkind
    · cases h
  · cases h
  · cases h

/-- All steps have a property. -/
def Emitted.All (P : Step → Prop) (e : Emitted) : Prop := ∀ st ∈ e.steps, P st

namespace Emitted.All

variable {P : Step → Prop} {a b : Emitted}

theorem of_nil (h : a.steps = []) : a.All P := by simp [All, h]

theorem append (ha : a.All P) (hb : b.All P) : (a ++ b).All P := List.forall_mem_append.2 ⟨ha, hb⟩

theorem notes (ds : List Diagnostic) : (notes ds).All P := of_nil rfl

theorem append_notes (ha : a.All P) (ds : List Diagnostic) : (a ++ Emitted.notes ds).All P :=
  ha.append (notes ds)

end Emitted.All

namespace Surroundings

variable {s : Surroundings} {sub : LowerChain} {P : Step → Prop}

/-- Only a chain that is given for a surface brings steps with it. -/
theorem all_argument (hvars : s.vars.Sound)
    (hsub : ∀ base ch, (∀ c ∈ ch.calls, c.Sound) → (sub base ch).1.All P) (base : Nat) (a : ArgSpec)
    {e : Expr} (he : e.Sound) : (s.argument sub base a e).1.All P := by
  have hsound := hvars.deref he
  have hnone : Emitted.All P {} := .of_nil rfl
  unfold argument
  generalize s.vars.deref e = e at hsound
  cases a.type with
  | surface =>
    unfold surfaceArg
    dsimp only
    split
    · exact hnone
    · split
      · exact hnone
      · exact .notes _
    · exact hsub _ _ (by simpa using hsound)
    · exact hsub _ _ ((Expr.sound_chain _).1 hsound).calls
    · exact .notes _
    · exact .notes _
  | string =>
    dsimp only
    split
    · exact hnone
    · exact .notes _
  | _ => exact .notes _

/-- Taking one more argument keeps what every step is known to be. -/
theorem all_take (hvars : s.vars.Sound)
    (hsub : ∀ base ch, (∀ c ∈ ch.calls, c.Sound) → (sub base ch).1.All P) (base : Nat)
    {given : Table Expr} (hgiven : Bindings.Sound given) {r : Arguments} (a : ArgSpec)
    (h : r.out.All P) : (Arguments.take s sub base given r a).out.All P := by
  have hwritten : ∀ e, given.get? a.name = some e →
      (s.argument sub (base + r.out.steps.length) a e).1.All P :=
    fun e hget => all_argument hvars hsub _ a (hgiven.get? hget)
  rcases take_cases s sub base given r a with ⟨e, out, v, hget, harg, htake⟩ | ⟨out, hout, htake⟩
  · have hmore := hwritten e hget
    rw [harg] at hmore
    rw [htake]
    exact h.append hmore
  · have hmore : out.All P := by
      rcases hout with ⟨-, rfl⟩ | ⟨e, hget, harg⟩
      · exact .of_nil rfl
      · have hmore := hwritten e hget
        rwa [harg] at hmore
    rcases htake with ⟨v, -, htake⟩ | htake <;> rw [htake] <;> exact h.append hmore

/-- The arguments of a call keep what every step is known to be. -/
theorem all_arguments (hvars : s.vars.Sound)
    (hsub : ∀ base ch, (∀ c ∈ ch.calls, c.Sound) → (sub base ch).1.All P) (base : Nat) {c : Call}
    (hc : c.Sound) (spec : OpSpec) : (s.arguments sub base c spec).out.All P := by
  have hfold : ∀ (as : List ArgSpec) (r : Arguments), r.out.All P →
      (as.foldl (Arguments.take s sub base (s.given c spec)) r).out.All P := by
    intro as
    induction as with
    | nil => exact fun r h => h
    | cons a as ih => exact fun r h => ih _ (all_take hvars hsub base (sound_given hc spec) a h)
  exact hfold spec.args _ (.notes _)

/-- A call of a chain adds the steps of its arguments and its own. -/
theorem all_next (hvars : s.vars.Sound)
    (hsub : ∀ base ch, (∀ c ∈ ch.calls, c.Sound) → (sub base ch).1.All P)
    (hcall : ∀ base c spec source, c.Sound → resolve? s.checker.registry c = some spec →
      P (s.stepOf sub base c spec source))
    (base : Nat) {p : Progress} {c : Call} (hc : c.Sound) (h : p.out.All P) :
    (Progress.next s sub base p c).out.All P := by
  unfold Progress.next
  dsimp only
  split
  · exact h.append_notes _
  · rename_i spec hspec
    split
    · exact h.append_notes _
    · split
      · exact h.append_notes _
      · have hown : Emitted.All P
            { steps := [s.stepOf sub (base + p.out.steps.length) c spec p.last] } :=
          List.forall_mem_singleton.2 (hcall _ c spec p.last hc hspec)
        exact h.append ((all_arguments hvars hsub _ hc spec).append hown)

/-- A chain comes to the steps of its calls and of the chains among their arguments. -/
theorem all_chainWith (hvars : s.vars.Sound)
    (hsub : ∀ base ch, (∀ c ∈ ch.calls, c.Sound) → (sub base ch).1.All P)
    (hcall : ∀ base c spec source, c.Sound → resolve? s.checker.registry c = some spec →
      P (s.stepOf sub base c spec source))
    (hout : ∀ st o, o.Writable → P st → P { st with out := some o }) (isArgument : Bool)
    (base : Nat) {ch : Chain} (hch : ∀ c ∈ ch.calls, c.Sound) :
    (s.chainWith sub isArgument base ch).1.All P := by
  have hfold : ∀ cs : List Call, (∀ c ∈ cs, c.Sound) → ∀ p : Progress, p.out.All P →
      (cs.foldl (Progress.next s sub base) p).out.All P := by
    intro cs
    induction cs with
    | nil => exact fun _ p h => h
    | cons c cs ih =>
      intro hcs p h
      obtain ⟨hc, hcs⟩ := List.forall_mem_cons.1 hcs
      exact ih hcs _ (all_next hvars hsub hcall base hc h)
  have hcalls := hfold (s.vars.expandChain ch).1 (fun c => hvars.expandChain hch)
    { out := notes (s.vars.expandChain ch).2 } (.notes _)
  unfold chainWith
  dsimp only
  generalize (s.vars.expandChain ch).1.foldl (Progress.next s sub base) _ = p at hcalls
  have hset : ∀ temp o, o.Writable →
      Emitted.All P { p.out with steps := setOut temp o p.out.steps } := by
    intro temp o ho st hst
    obtain ⟨st', hst', rfl⟩ := List.mem_map.1 hst
    split
    · exact hout st' o ho (hcalls st' hst')
    · exact hcalls st' hst'
  split
  · exact hcalls
  · split
    · split
      · next htarget => exact (hset _ _ (writable_outTarget (by rw [htarget]))).append_notes _
      · exact hcalls.append_notes _
    · split
      · split
        · exact hcalls
        · exact hcalls.append_notes _
      · exact hcalls

/-- What holds of the step of every call, and whatever the step is written to, holds of the
steps of a chain. -/
theorem all_chain (hvars : s.vars.Sound)
    (hcall : ∀ sub base c spec source, c.Sound → resolve? s.checker.registry c = some spec →
      P (s.stepOf sub base c spec source))
    (hout : ∀ st o, o.Writable → P st → P { st with out := some o }) (base : Nat) {ch : Chain}
    (hch : (Expr.chain ch).Sound) :
    (s.chain base ch).All P := by
  have hsub : ∀ depth base ch, (∀ c ∈ ch.calls, c.Sound) → (s.subchain depth base ch).1.All P := by
    intro depth
    induction depth with
    | zero => exact fun _ _ _ => .of_nil rfl
    | succ depth ih => exact fun base ch => all_chainWith hvars ih (hcall _) hout true base
  exact all_chainWith hvars (hsub _) (hcall _) hout false base ((Expr.sound_chain ch).1 hch).calls

/-! ### calls of the registry -/

/-- The operation a call refers to is registered, under its own name. -/
theorem lookup_of_resolve? {r : Registry} {c : Call} {spec : OpSpec}
    (h : resolve? r c = some spec) :
    ∃ spec', r.ops.lookup? spec.name = some spec' ∧ spec'.args = spec.args := by
  obtain ⟨spec', hlookup, rfl⟩ := Option.map_eq_some_iff.1 h
  exact ⟨spec', hlookup, rfl⟩

/-- The values so far fit arguments of the operation. -/
def AllFit (as : List ArgSpec) (values : Table Value) : Prop :=
  ∀ k v, (k, v) ∈ values.entries → ∃ a ∈ as, a.name = k ∧ v.Fits a

/-- A value that fits its parameter may be recorded. -/
theorem AllFit.insert {as : List ArgSpec} {values : Table Value} (h : AllFit as values)
    {a : ArgSpec} (ha : a ∈ as) {v : Value} (hv : v.Fits a) :
    AllFit as (values.insert a.name v) := by
  intro k w hkw
  rw [Table.mem_entries_iff, Table.get?_insert] at hkw
  split at hkw
  · rename_i hk
    obtain rfl := Option.some.inj hkw
    exact ⟨a, ha, hk.symm, hv⟩
  · exact h k w (Table.mem_entries_iff.2 hkw)

/-- Taking one more argument keeps the recorded values fitting. -/
theorem fit_take (hvars : s.vars.Sound) (base : Nat) {as : List ArgSpec} {given : Table Expr}
    (hgiven : Bindings.Sound given) {r : Arguments} {a : ArgSpec} (ha : a ∈ as)
    (hclear : ∀ t, a.default = .text t → Fields.isClear t.toList = true)
    (hfit : AllFit as r.values) :
    AllFit as (Arguments.take s sub base given r a).values := by
  rcases take_cases s sub base given r a with ⟨e, out, v, hget, harg, htake⟩
    | ⟨out, -, ⟨v, hv, htake⟩ | htake⟩
  · rw [htake]
    exact hfit.insert ha (fits_argument hvars (hgiven.get? hget) (by rw [harg]))
  · rw [htake]
    exact hfit.insert ha (Checker.fits_defaultValue hclear hv)
  · rwa [htake]

/-- The values of a call fit its arguments. -/
theorem fit_arguments (hvars : s.vars.Sound) (base : Nat) {c : Call} (hc : c.Sound) {spec : OpSpec}
    (hclear : ∀ a ∈ spec.args, ∀ t, a.default = .text t → Fields.isClear t.toList = true) :
    AllFit spec.args (s.arguments sub base c spec).values := by
  have hfold : ∀ (as : List ArgSpec), (∀ a ∈ as, a ∈ spec.args) → ∀ r : Arguments,
      AllFit spec.args r.values →
      AllFit spec.args (as.foldl (Arguments.take s sub base (s.given c spec)) r).values := by
    intro as
    induction as with
    | nil => exact fun _ r h => h
    | cons a as ih =>
      intro has r h
      obtain ⟨ha, has⟩ := List.forall_mem_cons.1 has
      exact ih has _ (fit_take hvars base (sound_given hc spec) ha (hclear a ha) h)
  exact hfold spec.args (fun _ h => h) _ (by simp [AllFit])

/-- The step of a call is one of the registry. -/
theorem made_stepOf (hplain : s.checker.registry.isPlain = true) (hvars : s.vars.Sound)
    (hguards : ∀ g ∈ s.guards, g.Bare) (base : Nat) {c : Call} (hc : c.Sound) {spec : OpSpec}
    (hspec : resolve? s.checker.registry c = some spec) (source : Option Nat) :
    (s.stepOf sub base c spec source).Made s.checker.registry := by
  obtain ⟨spec', hlookup, hargs⟩ := lookup_of_resolve? hspec
  have hclear : ∀ a ∈ spec.args, ∀ t, a.default = .text t → Fields.isClear t.toList = true := by
    intro a ha t ht
    have hspecs := List.all_eq_true.1 hplain (_, spec') (Table.mem_entries_iff.2 hlookup)
    simp only [OpSpec.isPlain, Bool.and_eq_true, List.all_eq_true] at hspecs
    have hdefault := (hspecs.2.2 a (hargs ▸ ha)).2
    rwa [ht] at hdefault
  refine ⟨⟨spec', hlookup, ?_⟩, hguards, by simp [stepOf], by simp [stepOf]⟩
  rw [hargs]
  exact fit_arguments hvars base hc hclear

end Surroundings

/-! ## statements -/

namespace Surroundings

variable {s : Surroundings}

theorem bare_loopCount (hvars : s.vars.Sound) {count : Option Expr}
    (hcount : ∀ e, count = some e → e.Sound) {pos : Pos} {n : Nat} {d : Dynamic}
    {ds : List Diagnostic} (h : s.loopCount count pos = (some (n, some d), ds)) :
    d.Bare ∧ d.negated = false := by
  unfold loopCount at h
  split at h
  · cases h
  · rename_i e
    split at h
    · dsimp only at h
      split at h
      · cases h
      · split at h <;> cases h
    · rename_i d' ds' hd
      obtain ⟨h, -⟩ := Prod.mk.inj h
      cases h
      exact Checker.bare_scalar hvars (hcount e rfl) hd
    · cases h
    · cases h

/-- A step of a loop's body is the same call, more often. -/
theorem made_repeated {r : Registry} {st : Step} (h : st.Made r) {n : Nat} {factor : Option Dynamic}
    (hfactor : ∀ d, factor = some d → d.Bare) : (repeated (n + 1) factor st).1.Made r := by
  have hcount : 0 < (Repeat.times st.repetition.count (n + 1 : Nat)).1 := by
    have hproduct : 0 < st.repetition.count * (n + 1) := Int.mul_pos h.count (by omega)
    rw [Repeat.times_eq_min h.count, lt_min_iff]
    exact ⟨by simpa using hproduct, by decide⟩
  unfold repeated
  dsimp only
  split
  · exact ⟨h.spec, h.guards, hcount, hfactor⟩
  · exact ⟨h.spec, h.guards, hcount, by rintro d ⟨⟩; exact h.factor _ ‹_›⟩
  · exact ⟨h.spec, h.guards, hcount, h.factor⟩

/-- Surroundings that statements of a parsed program have. -/
structure Proper (k : Checker) (s : Surroundings) : Prop where
  checker : s.checker = k
  vars : s.vars.Sound
  guards : ∀ g ∈ s.guards, g.Bare

theorem Proper.with_vars {k : Checker} (hs : s.Proper k) {vars : Bindings} (hv : vars.Sound) :
    Proper k { s with vars } :=
  ⟨hs.checker, hv, hs.guards⟩

/-- Bare guards may be put in place. -/
theorem Proper.with_guards {k : Checker} (hs : s.Proper k) {gs : List Dynamic}
    (hg : ∀ g ∈ gs, g.Bare) :
    Proper k { s with guards := s.guards ++ gs } := by
  refine ⟨hs.checker, hs.vars, ?_⟩
  simp only [List.mem_append]
  rintro g (h | h)
  · exact hs.guards g h
  · exact hg g h

end Surroundings

/-- What lowering keeps: it holds of the steps of a chain, of steps that come after others,
and of the steps of a loop. -/
structure Kept (k : Checker) (Q : Nat → List Step → Prop) : Prop where
  nil : ∀ base, Q base []
  append : ∀ {base as bs}, Q base as → Q (base + as.length) bs → Q base (as ++ bs)
  repeated : ∀ base as n factor, (∀ d, factor = some d → d.Bare ∧ d.negated = false) → Q base as →
    Q base (as.map fun st => (Surroundings.repeated (n + 1) factor st).1)
  chain : ∀ (s : Surroundings) base (ch : Chain), s.Proper k → (Expr.chain ch).Sound →
    Q base (s.chain base ch).steps

/-- The steps are as they are to be, and the variables are sound. -/
structure Lowered.Keeps (Q : Nat → List Step → Prop) (base : Nat) (l : Lowered) : Prop where
  steps : Q base l.out.steps
  vars : l.vars.Sound

namespace Surroundings

variable {k : Checker} {Q : Nat → List Step → Prop}

mutual

/-- A statement keeps every property that its chains, loops and choices keep. -/
theorem kept_stmt (hQ : Kept k Q) (st : Stmt) (s : Surroundings) (base : Nat) (hs : s.Proper k)
    (hst : ∀ e ∈ st.terms, e.Sound) : (s.stmt base st).Keeps Q base := by
  cases st with
  | bind name value pos =>
    rw [stmt]
    exact ⟨hQ.nil base, hs.vars.bind name (hst value (by simp [Stmt.terms]))⟩
  | run ch pos =>
    rw [stmt]
    exact ⟨hQ.chain s base ch hs (hst _ (by simp [Stmt.terms])), hs.vars⟩
  | choose arms otherwise pos =>
    cases otherwise with
    | none =>
      rw [stmt]
      refine kept_branches hQ arms s base [] {} _ hs (by simp) (hQ.nil base) ?_
        fun e he => hst e (by simpa [Stmt.terms] using he)
      exact fun s' negated before hs' _ hbefore => ⟨hbefore, hs'.vars⟩
    | some body =>
      rw [stmt]
      refine kept_branches hQ arms s base [] {} _ hs (by simp) (hQ.nil base) ?_
        fun e he => hst e (by simp [Stmt.terms, he])
      intro s' negated before hs' hnegated hbefore
      have hbody := kept_block hQ body _ (base + before.steps.length) (hs'.with_guards hnegated)
        fun e he => hst e (by simp [Stmt.terms, he])
      exact ⟨hQ.append hbefore hbody.steps, hbody.vars⟩
  | repeated count body pos =>
    rw [stmt]
    have hcount : ∀ e, count = some e → e.Sound := by
      rintro e rfl
      exact hst e (by simp [Stmt.terms])
    have hbody :=
      kept_block hQ body { s with loops := s.loops + 1 } base ⟨hs.checker, hs.vars, hs.guards⟩
      fun e he => hst e (by cases count <;> simp [Stmt.terms, he])
    split
    · exact ⟨hQ.nil base, hs.vars⟩
    · exact ⟨hQ.nil base, hs.vars⟩
    · rename_i n factor ds hn hrounds
      obtain ⟨n, rfl⟩ := Nat.exists_eq_succ_of_ne_zero hn
      dsimp only
      split
      · exact ⟨hbody.steps, hbody.vars⟩
      · exact ⟨hbody.steps, hbody.vars⟩
      · have hsteps :=
          hQ.repeated base _ n factor (fun d hd => bare_loopCount hs.vars hcount (hd ▸ hrounds))
            hbody.steps
        exact ⟨by simpa [repeatBody, Function.comp_def] using hsteps, hbody.vars⟩
  | leaveLoop pos =>
    rw [stmt]
    split <;> exact ⟨hQ.nil base, hs.vars⟩
  | nextRound pos =>
    rw [stmt]
    split <;> exact ⟨hQ.nil base, hs.vars⟩
  | finish pos =>
    rw [stmt]
    exact ⟨hQ.nil base, hs.vars⟩

/-- A block keeps what its statements keep. -/
theorem kept_block (hQ : Kept k Q) (body : List Stmt) (s : Surroundings) (base : Nat)
    (hs : s.Proper k) (hbody : Stmt.SoundBlock body) : (s.block base body).Keeps Q base := by
  cases body with
  | nil =>
    rw [block]
    exact ⟨hQ.nil base, hs.vars⟩
  | cons st rest =>
    have hfirst := kept_stmt hQ st s base hs fun e he => hbody e (by simp [Stmt.termsBlock, he])
    rw [block]
    dsimp only
    split
    · have hmore := kept_block hQ rest { s with vars := (s.stmt base st).vars }
        (base + (s.stmt base st).out.steps.length) (hs.with_vars hfirst.vars)
        fun e he => hbody e (by simp [Stmt.termsBlock, he])
      exact ⟨hQ.append hfirst.steps hmore.steps, hmore.vars⟩
    · exact ⟨by simpa using hfirst.steps, hfirst.vars⟩

/-- The arms of a choice keep what their blocks keep. -/
theorem kept_branches (hQ : Kept k Q) (arms : List Branch) (s : Surroundings) (base : Nat)
    (negated : List Dynamic) (before : Emitted)
    (otherwise : Surroundings → List Dynamic → Emitted → Lowered) (hs : s.Proper k)
    (hnegated : ∀ g ∈ negated, g.Bare) (hbefore : Q base before.steps)
    (hotherwise : ∀ s' negated before, Proper k s' → (∀ g ∈ negated, g.Bare) → Q base before.steps →
      (otherwise s' negated before).Keeps Q base)
    (harms : ∀ e ∈ Stmt.termsArms arms, e.Sound) :
    (s.branches base negated before otherwise arms).Keeps Q base := by
  cases arms with
  | nil =>
    rw [branches]
    exact hotherwise s negated before hs hnegated hbefore
  | cons arm rest =>
    obtain ⟨cond, body, pos⟩ := arm
    have hrest : ∀ e ∈ Stmt.termsArms rest, e.Sound :=
      fun e he => harms e (by simp [Stmt.termsArms, he])
    have hbody : Stmt.SoundBlock body := fun e he => harms e (by simp [Stmt.termsArms, he])
    cases hcond : s.checker.scalar s.vars cond none none "condition" with
    | mk v ds =>
      have hnotes : Q base (before ++ notes ds).steps := by simpa using hbefore
      cases v with
      | none =>
        rw [branches_of_none hcond]
        exact kept_branches hQ rest s base negated _ otherwise hs hnegated hnotes hotherwise hrest
      | some v =>
        by_cases hv : ∃ d, v = .dynamic d
        · obtain ⟨d, rfl⟩ := hv
          have hd := (Checker.bare_scalar hs.vars (harms cond (by simp [Stmt.termsArms])) hcond).1
          have harm := kept_block hQ body { s with guards := s.guards ++ negated ++ [d] }
            (base + (before ++ notes ds).steps.length)
            ((hs.with_guards hnegated).with_guards (by simpa using hd)) hbody
          rw [branches_of_dynamic hcond]
          refine kept_branches hQ rest { s with vars := _ } base _ _ otherwise
            (hs.with_vars harm.vars) ?_
            (hQ.append hnotes harm.steps) hotherwise hrest
          simp only [List.mem_append, List.mem_singleton]
          rintro g (h | rfl)
          · exact hnegated g h
          · exact ⟨hd.sound, hd.closed, hd.min, hd.max⟩
        · rw [branches_of_static hcond fun d hd => hv ⟨d, hd⟩]
          split
          · have harm := kept_block hQ body _ (base + (before ++ notes ds).steps.length)
              (hs.with_guards hnegated) hbody
            exact ⟨hQ.append hnotes harm.steps, harm.vars⟩
          · exact kept_branches hQ rest s base negated _ otherwise hs hnegated hnotes
              hotherwise hrest

end

end Surroundings

/-- A binding at the end adds no steps. -/
theorem Surroundings.block_concat_bind (s : Surroundings) (base : Nat) (stmts : List Stmt)
    (name : String) (value : Expr) (pos : Pos) :
    ∃ ds, (s.block base (stmts ++ [.bind name value pos])).out = (s.block base stmts).out ++
      notes ds := by
  induction stmts generalizing s base with
  | nil =>
    refine ⟨(s.vars.bind name value).2, ?_⟩
    rw [List.nil_append, block, block, stmt, block]
    change Emitted.mk _ _ _ = Emitted.mk _ _ _
    simp
  | cons st rest ih =>
    rw [List.cons_append, block, block]
    dsimp only
    split
    · obtain ⟨ds, hds⟩ :=
        ih { s with vars := (s.stmt base st).vars } (base + (s.stmt base st).out.steps.length)
      refine ⟨ds, ?_⟩
      dsimp only
      rw [hds]
      change Emitted.mk _ _ _ = Emitted.mk _ _ _
      simp
    · refine ⟨[{ problem := .unreachable, pos }], ?_⟩
      change Emitted.mk _ _ _ = Emitted.mk _ _ _
      simp [Stmt.pos]

/-- What a parsed program comes to is what statements come to whose expressions are sound. -/
theorem Program.exists_soundBlock {options : Options} {source : Bytes} {program : Program}
    (hparse : Program.parse options source = .ok program) (s : Surroundings) :
    ∃ stmts ds, Stmt.SoundBlock stmts ∧ (s.block 0 program.statements).out =
      (s.block 0 stmts).out ++ notes ds := by
  obtain ⟨init, last, hstatements, hinit, hlast⟩ := (Program.sound_parse hparse).statements
  rcases hlast with hlast | ⟨-, name, source, pos, pos', rfl⟩
  · refine ⟨init ++ last, [], hinit.append hlast, ?_⟩
    rw [hstatements]
    change _ = Emitted.mk _ _ _
    simp
  · obtain ⟨ds, hds⟩ := s.block_concat_bind 0 init name (.closure source pos) pos'
    exact ⟨init, ds, hinit, hstatements ▸ hds⟩

/-- What lowering keeps holds of the steps of a plan. -/
theorem Kept.plan {registry : Registry} {options options' : Options} {Q : Nat → List Step → Prop}
    (hQ : Kept { registry, suggest := options'.suggest } Q) {source : Bytes} {program : Program}
    {p : Plan} (hparse : Program.parse options source = .ok program)
    (hplan : program.plan registry options' = .ok p) :
    Q 0 p.steps := by
  obtain ⟨out, hblock, hsteps, -⟩ := Program.plan_block hplan
  obtain ⟨stmts, ds, hstmts, hout⟩ := Program.exists_soundBlock hparse
    { checker := { registry, suggest := options'.suggest } }
  have hkept := Surroundings.kept_block hQ stmts
    { checker := { registry, suggest := options'.suggest } } 0 ⟨rfl, nofun, nofun⟩ hstmts
  rw [hsteps, ← hblock, hout]
  simpa using hkept.steps

/-- Lowering keeps what holds of the step of every call, whatever the step is written to and
however often it runs. -/
theorem Kept.forall {k : Checker} {P : Step → Prop}
    (hcall : ∀ (s : Surroundings) sub base c spec source, s.Proper k → c.Sound →
      Surroundings.resolve? k.registry c = some spec → P (s.stepOf sub base c spec source))
    (hout : ∀ st o, o.Writable → P st → P { st with out := some o })
    (hrepeat : ∀ n factor st, (∀ d, factor = some d → d.Bare ∧ d.negated = false) → P st →
      P (Surroundings.repeated (n + 1) factor st).1) :
    Kept k fun _ steps => ∀ st ∈ steps, P st where
  nil _ := by simp
  append hs ht := List.forall_mem_append.2 ⟨hs, ht⟩
  repeated _ steps n factor hfactor h := by
    intro x hx
    obtain ⟨st, hst, rfl⟩ := List.mem_map.1 hx
    exact hrepeat n factor st hfactor (h st hst)
  chain s base ch hs hch := by
    refine Surroundings.all_chain hs.vars (fun sub base c spec source hc hspec => ?_) hout base hch
    exact hcall s sub base c spec source hs hc (hs.checker ▸ hspec)

/-- Lowering keeps steps that are calls of the registry. -/
theorem kept_made {k : Checker} (hk : k.registry.isPlain = true) :
    Kept k fun _ steps => ∀ st ∈ steps, st.Made k.registry := by
  refine .forall ?_ (fun st o _ h => ⟨h.spec, h.guards, h.count, h.factor⟩)
    fun n factor st hfactor h => Surroundings.made_repeated h fun d hd => (hfactor d hd).1
  intro s sub base c spec source hs hc hspec
  obtain rfl := hs.checker
  exact Surroundings.made_stepOf hk hs.vars hs.guards base hc hspec source

namespace Plan

variable {source : Bytes} {registry : Registry} {options : Options} {p : Plan}

/-- A plan is compiled from the program of its source. -/
theorem compile_eq_ok_iff : compile source registry options = .ok p ↔
    ∃ program, Program.parse options source = .ok program ∧ program.plan registry options =
      .ok p := by
  unfold compile
  cases Program.parse options source with
  | error e => simp
  | ok program =>
    dsimp only
    cases hplan : program.plan registry options <;> simp [hplan]

/-- A source that is scanned, parsed and planned is compiled. -/
theorem compile_of_stages {ts : List Token} {program : Program} (hscan : Token.scan source = .ok ts)
    (hparse : Program.ofTokens options ts = .ok program)
    (hplan : program.plan registry options = .ok p) :
    compile source registry options = .ok p := by
  refine compile_eq_ok_iff.2 ⟨program, ?_, hplan⟩
  rw [Program.parse_of_scan hscan, hparse]
  rfl

/-- The steps of a plan that is compiled are written to outputs and feedbacks. -/
theorem writable_compile (h : compile source registry options = .ok p) :
    ∀ st ∈ p.steps, ∀ o, st.out = some o → o.Writable := by
  obtain ⟨program, hparse, hplan⟩ := compile_eq_ok_iff.1 h
  refine Kept.plan (.forall ?_ ?_ ?_) hparse hplan
  · intro s sub base c spec source _ _ _ o ho
    simp [Surroundings.stepOf] at ho
  · intro st o ho _ o' ho'
    exact Option.some.inj ho' ▸ ho
  · intro n factor st _ hst
    unfold Surroundings.repeated
    dsimp only
    split <;> exact hst

/-- The steps of a plan that is compiled are calls of the registry, with values that fit
their arguments; the names it searches stand on one line. -/
theorem made_compile (hr : registry.isPlain = true) (h : compile source registry options = .ok p) :
    (∀ st ∈ p.steps, st.Made registry) ∧ ∀ name ∈ p.search, '\n' ∉ name.toList := by
  obtain ⟨program, hparse, hplan⟩ := compile_eq_ok_iff.1 h
  obtain ⟨-, -, -, -, -, hsearch, -⟩ := Program.plan_block hplan
  exact ⟨(kept_made hr).plan hparse hplan, hsearch ▸ (Program.sound_parse hparse).search⟩

end Plan

end EffectChain
