import EffectChain.Proofs.Plan.Lowering
import Mathlib.Logic.Relation
import Mathlib.Data.List.Perm.Subperm

/-!
# EffectChain.Proofs.Plan.Nesting

Chains within chains.  A chain that is lowered brings with it the chains that its
calls have for arguments; a variable in an argument stands for what it is bound to at
that time, so that a chain may have itself for an argument.

* `Surroundings.exhausted_iff` — whatever the depth to which arguments are lowered, it
  is exceeded exactly when that many chains are nested one in the other;
* `Surroundings.circular_iff` — the depth of the library is exceeded exactly when a
  chain is nested in itself, and then no depth is enough.
-/

namespace EffectChain

namespace Emitted

@[simp] theorem circular_append (a b : Emitted) : (a ++ b).circular = (a.circular || b.circular) :=
  rfl

@[simp] theorem circular_notes (ds : List Diagnostic) : (notes ds).circular = false := rfl

@[simp] theorem circular_note (p : Problem) (pos : Pos) : (note p pos).circular = false := rfl

end Emitted

open Emitted

/-- The chain an expression is when it is given for a surface. -/
def Expr.asChain? : Expr → Option Chain
  | .call c => some { calls := [c], pos := c.pos }
  | .chain ch => some ch
  | _ => none

namespace Surroundings

/-! ## which chains are lowered with a chain -/

/-- The arguments written in a call, by name. -/
def given (s : Surroundings) (c : Call) (spec : OpSpec) : Table Expr :=
  (keywords s.checker spec spec.name (positional spec.name {} spec.args c.args).1 c.kwargs).1

/-- The calls that become steps, with their operations: those that are known and stand
where they can.  `begun` says whether there is a step before them. -/
def taken (s : Surroundings) : (begun : Bool) → List Call → List (Call × OpSpec)
  | _, [] => []
  | begun, c :: cs =>
    match resolve? s.checker.registry c with
    | none => s.taken begun cs
    | some spec =>
      let ops := s.checker.registry.ops
      if !begun && !ops.isStarter spec.name && !ops.isPassthrough spec.name then s.taken begun cs
      else if begun && ops.isStarter spec.name then s.taken begun cs
      else (c, spec) :: s.taken true cs

/-- A chain has another one for an argument. -/
def Nests (s : Surroundings) (ch inner : Chain) : Prop :=
  ∃ call ∈ s.taken false (s.vars.expandChain ch).1, ∃ a ∈ call.2.args, a.type = .surface ∧
    ∃ e, (s.given call.1 call.2).get? a.name = some e ∧ (s.vars.deref e).asChain? = some inner

/-! ## the depth that is exceeded -/

section depth

variable {s : Surroundings} {sub : LowerChain} {C : Chain → Prop}

/-- A surface argument is circular when its nested chain is. -/
theorem circular_surfaceArg (hsub : ∀ base ch, (sub base ch).1.circular = true ↔ C ch) (base : Nat)
    (a : ArgSpec) (e : Expr) : (surfaceArg sub base a e).1.circular = true ↔ ∃ ch,
    e.asChain? = some ch ∧ C ch := by
  cases e with
  | call c => simp [surfaceArg, Expr.asChain?, hsub]
  | chain ch => simp [surfaceArg, Expr.asChain?, hsub]
  | string t pos =>
      simp only [surfaceArg, Expr.asChain?]
      cases Surface.ofName? (Bytes.toString t) <;> simp
  | _ => simp [surfaceArg, Expr.asChain?]

/-- Only an argument for a surface brings chains with it. -/
theorem circular_argument (hsub : ∀ base ch, (sub base ch).1.circular = true ↔ C ch) (base : Nat)
    (a : ArgSpec) (e : Expr) : (s.argument sub base a e).1.circular = true ↔
      a.type = .surface ∧ ∃ ch, (s.vars.deref e).asChain? = some ch ∧ C ch := by
  unfold argument
  cases ht : a.type with
  | surface => simpa using circular_surfaceArg hsub base a (s.vars.deref e)
  | string =>
      dsimp only
      split <;> simp
  | _ => simp

/-- Taking one more argument is circular when it was so before or the argument's chain is. -/
theorem circular_take (hsub : ∀ base ch, (sub base ch).1.circular = true ↔ C ch) (base : Nat)
    (given : Table Expr) (r : Arguments) (a : ArgSpec) :
    (Arguments.take s sub base given r a).out.circular = true ↔ r.out.circular = true ∨
      a.type = .surface ∧ ∃ e, given.get? a.name = some e ∧ ∃ ch,
      (s.vars.deref e).asChain? = some ch ∧ C ch := by
  unfold Arguments.take
  dsimp only
  cases hgiven : given.get? a.name with
  | none => cases s.checker.defaultValue a <;> simp
  | some e =>
      have harg := circular_argument (s := s) hsub (base + r.out.steps.length) a e
      dsimp only
      cases hv : s.argument sub (base + r.out.steps.length) a e with
      | mk out v =>
          rw [hv] at harg
          cases v with
          | none => cases s.checker.defaultValue a <;> simpa using or_congr_right harg
          | some v => simpa using or_congr_right harg

/-- Taking several arguments is circular when one of their chains is. -/
theorem circular_foldl_take (hsub : ∀ base ch, (sub base ch).1.circular = true ↔ C ch) (base : Nat)
    (given : Table Expr) (as : List ArgSpec) (r : Arguments) :
    (as.foldl (Arguments.take s sub base given) r).out.circular = true ↔ r.out.circular = true ∨
      ∃ a ∈ as, a.type = .surface ∧ ∃ e, given.get? a.name = some e ∧
        ∃ ch, (s.vars.deref e).asChain? = some ch ∧ C ch := by
  induction as generalizing r with
  | nil => simp
  | cons a as ih => simp [ih, circular_take hsub, or_assoc]

/-- A call is circular when one of its surface arguments is. -/
theorem circular_call (hsub : ∀ base ch, (sub base ch).1.circular = true ↔ C ch) (base : Nat)
    (c : Call) (spec : OpSpec) (source : Option Nat) :
    (s.call sub base c spec source).1.circular = true ↔
      ∃ a ∈ spec.args, a.type = .surface ∧ ∃ e, (s.given c spec).get? a.name = some e ∧
        ∃ ch, (s.vars.deref e).asChain? = some ch ∧ C ch := by
  simp [call, given, circular_foldl_take hsub]

/-- A call of a chain brings the chains of its arguments if it becomes a step. -/
theorem circular_foldl_next (hsub : ∀ base ch, (sub base ch).1.circular = true ↔ C ch) (base : Nat)
    (cs : List Call) (p : Progress) :
    (cs.foldl (Progress.next s sub base) p).out.circular = true ↔ p.out.circular = true ∨
      ∃ call ∈ s.taken p.last.isSome cs, ∃ a ∈ call.2.args, a.type = .surface ∧
        ∃ e, (s.given call.1 call.2).get? a.name = some e ∧ ∃ ch,
        (s.vars.deref e).asChain? = some ch ∧ C ch := by
  induction cs generalizing p with
  | nil => simp [taken]
  | cons c cs ih =>
      rw [List.foldl_cons, ih, taken]
      unfold Progress.next
      dsimp only
      cases hr : resolve? s.checker.registry c with
      | none => simp
      | some spec =>
          dsimp only
          cases hlast : p.last with
          | none =>
              by_cases hs : s.checker.registry.ops.isStarter spec.name <;>
                by_cases hp : s.checker.registry.ops.isPassthrough spec.name <;>
                  simp [hs, hp, circular_call hsub, or_assoc]
          | some last =>
              by_cases hs : s.checker.registry.ops.isStarter spec.name <;>
                simp [hs, circular_call hsub, or_assoc]

/-- A chain exceeds a depth when a chain nested in it does. -/
theorem circular_chainWith (hsub : ∀ base ch, (sub base ch).1.circular = true ↔ C ch)
    (isArgument : Bool) (base : Nat) (ch : Chain) :
    (s.chainWith sub isArgument base ch).1.circular = true ↔
      ∃ inner, s.Nests ch inner ∧ C inner := by
  have hcalls := circular_foldl_next (s := s) hsub base (s.vars.expandChain ch).1
    { out := notes (s.vars.expandChain ch).2 }
  have hout : (s.chainWith sub isArgument base ch).1.circular = ((s.vars.expandChain ch).1.foldl
      (Progress.next s sub base) { out := notes (s.vars.expandChain ch).2 }).out.circular := by
    unfold chainWith
    dsimp only
    split
    · rfl
    · split
      · split <;> simp
      · split
        · split <;> simp
        · rfl
  rw [hout, hcalls]
  simp only [circular_notes, Option.isSome_none, Nests]
  grind

end depth

/-- Chains are nested one in the other to a depth. -/
def Deep (s : Surroundings) : Nat → Chain → Prop
  | 0, _ => True
  | n + 1, ch => ∃ inner, s.Nests ch inner ∧ s.Deep n inner

/-- A chain lowered with `n` nested levels is circular when it nests deeper than that. -/
theorem circular_subchain (s : Surroundings) (n base : Nat) (ch : Chain) :
    (s.subchain n base ch).1.circular = true ↔ s.Deep n ch := by
  induction n generalizing base ch with
  | zero => simp [subchain, Deep]
  | succ n ih => exact circular_chainWith ih true base ch

/-- Arguments that are lowered to a depth exceed it exactly when chains are nested
deeper. -/
theorem exhausted_iff (s : Surroundings) (depth : Nat) (isArgument : Bool) (base : Nat)
    (ch : Chain) :
    (s.chainWith (s.subchain depth) isArgument base ch).1.circular = true ↔ s.Deep (depth + 1) ch :=
  circular_chainWith (circular_subchain s depth) isArgument base ch

end Surroundings

/-! ## the parts of an expression -/

/-- The expressions written in a call. -/
def CallOf.written {ε : Type} (c : CallOf ε) : List ε := c.args ++ c.kwargs.map (·.value)

/-- The calls of an expression itself, not those of its arguments. -/
def Expr.calls : Expr → List Call
  | .call c => [c]
  | .chain ch => ch.calls
  | _ => []

mutual

/-- An expression and the arguments within it. -/
def Expr.parts : Expr → List Expr
  | .call ⟨name, args, kwargs, ns, pos⟩ =>
      .call ⟨name, args, kwargs, ns, pos⟩ :: (partsArgs args ++ partsKeywords kwargs)
  | .chain ⟨base, calls, out, pos⟩ => .chain ⟨base, calls, out, pos⟩ :: partsCalls calls
  | e => [e]

def Expr.partsArgs : List Expr → List Expr
  | [] => []
  | e :: es => e.parts ++ partsArgs es

def Expr.partsKeywords : List (KeywordOf Expr) → List Expr
  | [] => []
  | ⟨_, e, _⟩ :: ks => e.parts ++ partsKeywords ks

def Expr.partsCalls : List (CallOf Expr) → List Expr
  | [] => []
  | ⟨_, args, kwargs, _, _⟩ :: cs => partsArgs args ++ partsKeywords kwargs ++ partsCalls cs

end

namespace Expr

mutual

/-- An expression has no more parts than its size. -/
theorem length_parts (e : Expr) : e.parts.length ≤ e.size := by
  cases e with
  | call c =>
      obtain ⟨name, args, kwargs, ns, pos⟩ := c
      have hargs := length_partsArgs args
      have hkwargs := length_partsKeywords kwargs
      simp only [parts, size, List.length_cons, List.length_append]
      omega
  | chain ch =>
      obtain ⟨base, calls, out, pos⟩ := ch
      have hcalls := length_partsCalls calls
      simp only [parts, size, List.length_cons]
      omega
  | _ => simp [parts, size]

/-- Arguments have no more parts than their size. -/
theorem length_partsArgs (es : List Expr) : (partsArgs es).length ≤ sizeArgs es := by
  cases es with
  | nil => simp [partsArgs]
  | cons e es =>
      have he := length_parts e
      have hes := length_partsArgs es
      simp only [partsArgs, sizeArgs, List.length_append]
      omega

/-- Keywords have no more parts than their size. -/
theorem length_partsKeywords (ks : List (KeywordOf Expr)) :
    (partsKeywords ks).length ≤ sizeKeywords ks := by
  cases ks with
  | nil => simp [partsKeywords]
  | cons k ks =>
      obtain ⟨name, e, pos⟩ := k
      have he := length_parts e
      have hks := length_partsKeywords ks
      simp only [partsKeywords, sizeKeywords, List.length_append]
      omega

/-- Calls have no more parts than their size. -/
theorem length_partsCalls (cs : List (CallOf Expr)) : (partsCalls cs).length ≤ sizeCalls cs := by
  cases cs with
  | nil => simp [partsCalls]
  | cons c cs =>
      obtain ⟨name, args, kwargs, ns, pos⟩ := c
      have hargs := length_partsArgs args
      have hkwargs := length_partsKeywords kwargs
      have hcs := length_partsCalls cs
      simp only [partsCalls, sizeCalls, List.length_append]
      omega

end

theorem partsArgs_eq (es : List Expr) : partsArgs es = es.flatMap parts := by
  induction es with
  | nil => simp [partsArgs]
  | cons e es ih => simp [partsArgs, ih]

theorem partsKeywords_eq (ks : List (KeywordOf Expr)) :
    partsKeywords ks = (ks.map (·.value)).flatMap parts := by
  induction ks with
  | nil => simp [partsKeywords]
  | cons k ks ih => simp [partsKeywords, ih]

/-- The parts of an expression are itself and the parts of what is written in its
calls. -/
theorem parts_eq (e : Expr) : e.parts = e :: e.calls.flatMap fun c => c.written.flatMap parts := by
  have hcalls : ∀ cs : List (CallOf Expr), partsCalls cs = cs.flatMap fun c =>
      c.written.flatMap parts := by
    intro cs
    induction cs with
    | nil => simp [partsCalls]
    | cons c cs ih => simp [partsCalls, partsArgs_eq, partsKeywords_eq, CallOf.written, ih]
  cases e with
  | call c => simp [parts, calls, partsArgs_eq, partsKeywords_eq, CallOf.written]
  | chain ch => simp [parts, calls, hcalls]
  | _ => simp [parts, calls]

/-- An expression taken as a chain keeps its calls. -/
theorem calls_of_asChain? {e : Expr} {ch : Chain} (h : e.asChain? = some ch) :
    ch.calls = e.calls := by
  cases e with
  | call c =>
      obtain rfl := Option.some.inj h
      rfl
  | chain ch' =>
      obtain rfl := Option.some.inj h
      rfl
  | _ => simp [asChain?] at h

mutual

/-- The parts of a part are parts. -/
theorem parts_trans (e : Expr) {a b : Expr} (ha : a ∈ e.parts) (hb : b ∈ a.parts) :
    b ∈ e.parts := by
  cases e with
  | call c =>
      obtain ⟨name, args, kwargs, ns, pos⟩ := c
      rw [parts, List.mem_cons, List.mem_append] at ha
      rcases ha with rfl | ha | ha
      · exact hb
      · exact List.mem_cons_of_mem _ (List.mem_append_left _ (partsArgs_trans args ha hb))
      · exact List.mem_cons_of_mem _ (List.mem_append_right _ (partsKeywords_trans kwargs ha hb))
  | chain ch =>
      obtain ⟨base, calls, out, pos⟩ := ch
      rw [parts, List.mem_cons] at ha
      rcases ha with rfl | ha
      · exact hb
      · exact List.mem_cons_of_mem _ (partsCalls_trans calls ha hb)
  | _ =>
      obtain rfl := List.mem_singleton.1 ha
      exact hb

/-- The parts of a part of the arguments are parts of the arguments. -/
theorem partsArgs_trans (es : List Expr) {a b : Expr} (ha : a ∈ partsArgs es) (hb : b ∈ a.parts) :
    b ∈ partsArgs es := by
  cases es with
  | nil => simp [partsArgs] at ha
  | cons e es =>
      rw [partsArgs, List.mem_append] at ha ⊢
      rcases ha with ha | ha
      · exact .inl (parts_trans e ha hb)
      · exact .inr (partsArgs_trans es ha hb)

/-- The parts of a part of the keywords are parts of the keywords. -/
theorem partsKeywords_trans (ks : List (KeywordOf Expr)) {a b : Expr} (ha : a ∈ partsKeywords ks)
    (hb : b ∈ a.parts) : b ∈ partsKeywords ks := by
  cases ks with
  | nil => simp [partsKeywords] at ha
  | cons k ks =>
      obtain ⟨name, e, pos⟩ := k
      rw [partsKeywords, List.mem_append] at ha ⊢
      rcases ha with ha | ha
      · exact .inl (parts_trans e ha hb)
      · exact .inr (partsKeywords_trans ks ha hb)

/-- The parts of a part of the calls are parts of the calls. -/
theorem partsCalls_trans (cs : List (CallOf Expr)) {a b : Expr} (ha : a ∈ partsCalls cs)
    (hb : b ∈ a.parts) :
    b ∈ partsCalls cs := by
  cases cs with
  | nil => simp [partsCalls] at ha
  | cons c cs =>
      obtain ⟨name, args, kwargs, ns, pos⟩ := c
      rw [partsCalls, List.mem_append, List.mem_append] at ha ⊢
      rcases ha with (ha | ha) | ha
      · exact .inl (.inl (partsArgs_trans args ha hb))
      · exact .inl (.inr (partsKeywords_trans kwargs ha hb))
      · exact .inr (partsCalls_trans cs ha hb)

end

/-- What is written in a call of a part is a part. -/
theorem mem_parts_of_written {e a w : Expr} {c : Call} (ha : a ∈ e.parts) (hc : c ∈ a.calls)
    (hw : w ∈ c.written) : w ∈ e.parts := by
  refine parts_trans e ha ?_
  rw [parts_eq]
  refine List.mem_cons_of_mem _ (List.mem_flatMap.2 ⟨c, hc, List.mem_flatMap.2 ⟨w, hw, ?_⟩⟩)
  rw [parts_eq]
  exact List.mem_cons_self

end Expr

/-! ## where the chains within a chain come from -/

namespace Bindings

variable {vars : Bindings}

/-- Only names are followed. -/
theorem deref_leaf {e : Expr} (he : ∀ name pos, e ≠ .ident name pos) :
    vars.deref e = e := by
  cases e with
  | ident name pos => exact absurd rfl (he name pos)
  | _ => rfl

/-- An expression stands for itself or for what a variable is bound to. -/
theorem deref_cases (vars : Bindings) (e : Expr) :
    vars.deref e = e ∨ vars.deref e ∈ vars.values := by
  have hfollow : ∀ (n : Nat) (e : Expr), vars.follow n e = e ∨ vars.follow n e ∈ vars.values := by
    intro n
    induction n with
    | zero =>
        intro e
        exact .inl (by cases e <;> rfl)
    | succ n ih =>
        intro e
        cases e with
        | ident name pos =>
            rw [follow]
            cases hv : vars.get? name with
            | none => exact .inl rfl
            | some v =>
                refine .inr ?_
                rcases ih v with h | h
                · dsimp only
                  rw [h]
                  exact Table.mem_values_iff.2 ⟨name, hv⟩
                · exact h
        | _ => exact .inl rfl
  exact hfollow maxAliases e

theorem mem_putKeyword {k x : Keyword} {ks : List Keyword} (h : x ∈ putKeyword k ks) :
    x = k ∨ x ∈ ks := by
  fun_induction putKeyword k ks <;> grind

/-- What a call with further arguments has written in it, one of the two calls has. -/
theorem written_mergeCall {base use : Call} {w : Expr} (h : w ∈ (mergeCall base use).written) :
    w ∈ base.written ∨ w ∈ use.written := by
  have hfold : ∀ (us ks : List Keyword) (x : Keyword),
      x ∈ us.foldl (fun ks k => putKeyword k ks) ks → x ∈ ks ∨ x ∈ us := by
    intro us
    induction us with
    | nil => exact fun ks x hx => .inl hx
    | cons u us ih =>
        intro ks x hx
        rcases ih (putKeyword u ks) x hx with hx | hx
        · rcases mem_putKeyword hx with rfl | hx
          · exact .inr List.mem_cons_self
          · exact .inl hx
        · exact .inr (List.mem_cons_of_mem u hx)
  simp only [CallOf.written, mergeCall, List.mem_append, List.mem_map] at h ⊢
  rcases h with (h | h) | ⟨k, hk, rfl⟩
  · exact .inl (.inl h)
  · exact .inr (.inl h)
  · rcases hfold _ _ k hk with hk | hk
    · exact .inl (.inr ⟨k, hk, rfl⟩)
    · exact .inr (.inr ⟨k, hk, rfl⟩)

/-- The expression is written in a call of a variable. -/
def Supplies (vars : Bindings) (w : Expr) : Prop := ∃ v ∈ vars.values, ∃ c ∈ v.calls, w ∈ c.written

theorem supplies_of_get? {name : String} {v w : Expr} {c : Call} (hv : vars.get? name = some v)
    (hc : c ∈ v.calls) (hw : w ∈ c.written) : vars.Supplies w :=
  ⟨v, Table.mem_values_iff.2 ⟨name, hv⟩, c, hc, hw⟩

/-- A call that a call stands for: what a variable makes of it. -/
inductive Expands (vars : Bindings) (c : Call) : Call → Prop where
  | self (h : c.ns.explicit = true ∨ vars.get? c.name = none) : Expands vars c c
  | renamed {name : String} {pos : Pos} (hns : c.ns.explicit = false)
      (hv : vars.get? c.name = some (.ident name pos)) : Expands vars c { c with name }
  | qualified {path : List String} {pos : Pos} {ns : NamespaceRef} (hns : c.ns.explicit = false)
      (hv : vars.get? c.name = some (.member path pos)) : Expands vars c
        { c with name := path.getLastD "", ns }
  | merged {base : Call} (hns : c.ns.explicit = false) (hv : vars.get? c.name = some (.call base)) :
      Expands vars c (mergeCall base c)
  | spliced {ch : Chain} {c' : Call} (hns : c.ns.explicit = false)
      (hv : vars.get? c.name = some (.chain ch))
      (hc : c' ∈ ch.calls) : Expands vars c c'

/-- A call expands to what the bindings say. -/
theorem mem_expandCall {c c' : Call} (h : c' ∈ (vars.expandCall c).1) : vars.Expands c c' := by
  unfold expandCall at h
  split at h
  · next hns =>
    obtain rfl := List.mem_singleton.1 h
    exact .self (.inl hns)
  · next hns =>
    rw [Bool.not_eq_true] at hns
    split at h
    · next hv =>
      obtain rfl := List.mem_singleton.1 h
      exact .self (.inr hv)
    · next hv =>
      obtain rfl := List.mem_singleton.1 h
      exact .renamed hns hv
    · next hv =>
      obtain rfl := List.mem_singleton.1 h
      exact .qualified hns hv
    · next hv =>
      obtain rfl := List.mem_singleton.1 h
      exact .merged hns hv
    · next hv => exact .spliced hns hv h
    · simp at h

/-- A call that a variable at the start of a chain stands for. -/
inductive Begins (vars : Bindings) (ch : Chain) : Call → Prop where
  | call {base : String} {c : Call} (hbase : ch.base = some base)
      (hv : vars.get? base = some (.call c)) :
      Begins vars ch c
  | spliced {base : String} {ch' : Chain} {c : Call} (hbase : ch.base = some base)
      (hv : vars.get? base = some (.chain ch')) (hc : c ∈ ch'.calls) : Begins vars ch c
  | named {base name : String} {pos : Pos} (hbase : ch.base = some base)
      (hv : vars.get? base = some (.ident name pos)) : Begins vars ch { name, pos := ch.pos }

/-- The base of a chain expands to what the bindings say. -/
theorem mem_expandBase {ch : Chain} {c : Call} (h : c ∈ (vars.expandBase ch).1) :
    vars.Begins ch c := by
  unfold expandBase at h
  split at h
  · simp at h
  · next hbase =>
    split at h
    · next hv =>
      obtain rfl := List.mem_singleton.1 h
      exact .call hbase hv
    · next hv => exact .spliced hbase hv h
    · next hv =>
      obtain rfl := List.mem_singleton.1 h
      exact .named hbase hv
    · simp at h

/-- What an expanded call has written was written in it or is supplied by the bindings. -/
theorem written_expandCall {c c' : Call} {w : Expr} (hc : c' ∈ (vars.expandCall c).1)
    (hw : w ∈ c'.written) :
    w ∈ c.written ∨ vars.Supplies w := by
  cases mem_expandCall hc with
  | self | renamed | qualified => exact .inl hw
  | merged _ hv =>
      rcases written_mergeCall hw with hw | hw
      · exact .inr (supplies_of_get? hv (List.mem_singleton.2 rfl) hw)
      · exact .inl hw
  | spliced _ hv hc => exact .inr (supplies_of_get? hv hc hw)

/-- The calls a chain stands for are those its calls stand for, after those of the variable
it starts with. -/
theorem expandChain_eq (vars : Bindings) (ch : Chain) :
    vars.expandChain ch = ((vars.expandBase ch).1 ++ ch.calls.flatMap fun c =>
      (vars.expandCall c).1,
      (vars.expandBase ch).2 ++ ch.calls.flatMap fun c => (vars.expandCall c).2) := by
  have hfold : ∀ (cs : List Call) (r : List Call × List Diagnostic),
      cs.foldl (fun r c => (r.1 ++ (vars.expandCall c).1, r.2 ++ (vars.expandCall c).2)) r =
        (r.1 ++ cs.flatMap fun c => (vars.expandCall c).1, r.2 ++ cs.flatMap fun c =>
            (vars.expandCall c).2) := by
    intro cs
    induction cs with
    | nil => simp
    | cons c cs ih => simp [ih]
  exact hfold ch.calls _

theorem mem_expandChain {ch : Chain} {c : Call} (hc : c ∈ (vars.expandChain ch).1) :
    c ∈ (vars.expandBase ch).1 ∨ ∃ c' ∈ ch.calls, c ∈ (vars.expandCall c').1 := by
  rw [expandChain_eq] at hc
  exact (List.mem_append.1 hc).imp_right List.mem_flatMap.1

/-- What is written in the calls a chain stands for is written in the chain or comes
from a variable. -/
theorem written_expandChain {ch : Chain} {c : Call} {w : Expr} (hc : c ∈ (vars.expandChain ch).1)
    (hw : w ∈ c.written) : (∃ c' ∈ ch.calls, w ∈ c'.written) ∨ vars.Supplies w := by
  rcases mem_expandChain hc with hc | ⟨c', hc', hc⟩
  · right
    cases mem_expandBase hc with
    | call _ hv => exact supplies_of_get? hv (List.mem_singleton.2 rfl) hw
    | spliced _ hv hc => exact supplies_of_get? hv hc hw
    | named => simp [CallOf.written] at hw
  · exact (written_expandCall hc hw).imp_left fun h => ⟨c', hc', h⟩

end Bindings

namespace Surroundings

variable {s : Surroundings}

/-- An argument by name is written in its call. -/
theorem written_given {c : Call} {spec : OpSpec} {name : String} {e : Expr}
    (h : (s.given c spec).get? name = some e) : e ∈ c.written := by
  have hpositional : ∀ (as : List ArgSpec) (es : List Expr) (t : Table Expr),
      (positional spec.name t as es).1.get? name = some e → t.get? name = some e ∨ e ∈ es := by
    intro as es
    induction es generalizing as with
    | nil => exact fun t ht => .inl (by simpa [positional] using ht)
    | cons x es ih =>
        intro t ht
        cases as with
        | nil => exact .inl (by simpa [positional] using ht)
        | cons a as =>
            rcases ih as _ ht with ht | ht
            · rw [Table.get?_insert] at ht
              split at ht
              · exact .inr (by simp [Option.some.inj ht])
              · exact .inl ht
            · exact .inr (List.mem_cons_of_mem x ht)
  have hkeywords : ∀ (ks : List Keyword) (t : Table Expr),
      (keywords s.checker spec spec.name t ks).1.get? name = some e → t.get? name = some e ∨
          ∃ k ∈ ks, k.value = e := by
    intro ks
    induction ks with
    | nil => exact fun t ht => .inl ht
    | cons k ks ih =>
        intro t ht
        rw [keywords] at ht
        split at ht
        · rcases ih _ ht with ht | ⟨k', hk', rfl⟩
          · rw [Table.get?_insert] at ht
            split at ht
            · exact .inr ⟨k, List.mem_cons_self, Option.some.inj ht⟩
            · exact .inl ht
          · exact .inr ⟨k', List.mem_cons_of_mem k hk', rfl⟩
        · rcases ih t ht with ht | ⟨k', hk', rfl⟩
          · exact .inl ht
          · exact .inr ⟨k', List.mem_cons_of_mem k hk', rfl⟩
  rw [CallOf.written, List.mem_append, List.mem_map]
  rcases hkeywords c.kwargs _ h with h | hk
  · rcases hpositional spec.args c.args {} h with h | h
    · simp at h
    · exact .inl h
  · exact .inr hk

theorem mem_of_taken {begun : Bool} {cs : List Call} {call : Call × OpSpec}
    (h : call ∈ s.taken begun cs) :
    call.1 ∈ cs := by
  fun_induction taken s begun cs <;> grind

/-- A chain within a chain is written in one of its calls, or is bound to a variable, or
is written in a call of one. -/
theorem Nests.source {ch inner : Chain} (h : s.Nests ch inner) :
    ∃ e : Expr, e.asChain? = some inner ∧
      ((∃ c ∈ ch.calls, e ∈ c.written) ∨ e ∈ s.vars.values ∨ s.vars.Supplies e) := by
  obtain ⟨call, hcall, a, -, -, w, hw, hinner⟩ := h
  refine ⟨_, hinner, ?_⟩
  rcases s.vars.deref_cases w with heq | hv
  · rw [heq]
    rcases Bindings.written_expandChain (mem_of_taken hcall) (written_given hw) with h | h
    · exact .inl h
    · exact .inr (.inr h)
  · exact .inr (.inl hv)

/-! ## cycles -/

/-- The expressions that can become chains within a chain. -/
def pool (s : Surroundings) (ch : Chain) : List Expr :=
  (Expr.chain ch).parts ++ s.vars.values.flatMap Expr.parts

/-- The pool of a chain is no larger than its depth bound. -/
theorem length_pool (s : Surroundings) (ch : Chain) :
    (s.pool ch).length ≤ depthBound s.vars ch := by
  have hfold : ∀ (vs : List Expr) (n : Nat),
      n + (vs.flatMap Expr.parts).length ≤ vs.foldl (fun n e => n + e.size) n := by
    intro vs
    induction vs with
    | nil => simp
    | cons v vs ih =>
        intro n
        have hv := v.length_parts
        have hvs := ih (n + v.size)
        simp only [List.flatMap_cons, List.length_append, List.foldl_cons]
        omega
  have hch := (Expr.chain ch).length_parts
  have hall := hfold s.vars.values (1 + (Expr.chain ch).size)
  rw [pool, List.length_append, depthBound]
  omega

/-- The chains within a chain come from its pool again and again. -/
theorem Nests.pooled {root ch inner : Chain} (hch : ch ∈ (s.pool root).filterMap Expr.asChain?)
    (h : s.Nests ch inner) : inner ∈ (s.pool root).filterMap Expr.asChain? := by
  obtain ⟨a, ha, hchain⟩ := List.mem_filterMap.1 hch
  obtain ⟨e, he, hsource⟩ := h.source
  refine List.mem_filterMap.2 ⟨e, ?_, he⟩
  have hself : ∀ v ∈ s.vars.values, v ∈ v.parts := by
    intro v _
    rw [Expr.parts_eq]
    exact List.mem_cons_self
  rcases hsource with ⟨c, hc, hw⟩ | hv | ⟨v, hv, c, hc, hw⟩
  · rw [Expr.calls_of_asChain? hchain] at hc
    rcases List.mem_append.1 ha with ha | ha
    · exact List.mem_append_left _ (Expr.mem_parts_of_written ha hc hw)
    · obtain ⟨v, hv, ha⟩ := List.mem_flatMap.1 ha
      exact List.mem_append_right _ (List.mem_flatMap.2 ⟨v, hv, Expr.mem_parts_of_written ha hc hw⟩)
  · exact List.mem_append_right _ (List.mem_flatMap.2 ⟨e, hv, hself e hv⟩)
  · exact List.mem_append_right _
      (List.mem_flatMap.2 ⟨v, hv, Expr.mem_parts_of_written (hself v hv) hc hw⟩)

/-- A chain within which some chain is nested in itself. -/
def Circular (s : Surroundings) (ch : Chain) : Prop :=
  ∃ inner, Relation.ReflTransGen s.Nests ch inner ∧ Relation.TransGen s.Nests inner inner

/-- A circular chain is nested to every depth. -/
theorem Circular.deep {ch : Chain} (h : s.Circular ch) (n : Nat) : s.Deep n ch := by
  induction n generalizing ch with
  | zero => trivial
  | succ n ih =>
      obtain ⟨inner, hpath, hcycle⟩ := h
      rcases hpath.cases_head with rfl | ⟨next, hnext, hrest⟩
      · obtain ⟨next, hnext, hback⟩ := Relation.TransGen.head'_iff.1 hcycle
        exact ⟨next, hnext, ih ⟨ch, hback, hcycle⟩⟩
      · exact ⟨next, hnext, ih ⟨inner, hrest, hcycle⟩⟩

/-- A chain that is nested deeper than its pool is large is circular: on the way down
`seen` some chain comes a second time. -/
theorem circular_of_deep {root ch : Chain} {n : Nat} {seen : List Chain} (hdeep : s.Deep n ch)
    (hch : ch ∈ (s.pool root).filterMap Expr.asChain?)
    (hseen : ∀ x ∈ seen, x ∈ (s.pool root).filterMap Expr.asChain? ∧ Relation.TransGen s.Nests x ch)
    (hnodup : seen.Nodup) (hlong : (s.pool root).length ≤ n + seen.length) : s.Circular ch := by
  induction n generalizing ch seen with
  | zero =>
      by_cases hin : ch ∈ seen
      · exact ⟨ch, .refl, (hseen ch hin).2⟩
      · have hsub : ch :: seen ⊆ (s.pool root).filterMap Expr.asChain? :=
          List.cons_subset.2 ⟨hch, fun x hx => (hseen x hx).1⟩
        have hfits := ((List.nodup_cons.2 ⟨hin, hnodup⟩).subperm hsub).length_le
        have hpool := List.length_filterMap_le Expr.asChain? (s.pool root)
        simp only [List.length_cons] at hfits
        omega
  | succ n ih =>
      by_cases hin : ch ∈ seen
      · exact ⟨ch, .refl, (hseen ch hin).2⟩
      · obtain ⟨next, hnext, hrest⟩ := hdeep
        have hfurther : ∀ x ∈ ch :: seen, x ∈ (s.pool root).filterMap Expr.asChain? ∧
            Relation.TransGen s.Nests x next := by
          intro x hx
          rcases List.mem_cons.1 hx with rfl | hx
          · exact ⟨hch, .single hnext⟩
          · exact ⟨(hseen x hx).1, (hseen x hx).2.tail hnext⟩
        obtain ⟨inner, hpath, hcycle⟩ := ih hrest (hnext.pooled hch) hfurther
          (List.nodup_cons.2 ⟨hin, hnodup⟩) (by simp only [List.length_cons]; omega)
        exact ⟨inner, .head hnext hpath, hcycle⟩

/-- With at least its depth bound of levels, a chain nests too deep just when it is circular. -/
theorem deep_iff_circular {ch : Chain} {n : Nat} (hn : depthBound s.vars ch ≤ n) :
    s.Deep n ch ↔ s.Circular ch := by
  constructor
  · intro hdeep
    have hself : ch ∈ (s.pool ch).filterMap Expr.asChain? := by
      refine List.mem_filterMap.2 ⟨.chain ch, List.mem_append_left _ ?_, rfl⟩
      rw [Expr.parts_eq]
      exact List.mem_cons_self
    have hpool := s.length_pool ch
    exact circular_of_deep hdeep hself (by simp) .nil (by simp only [List.length_nil]; omega)
  · exact fun h => h.deep n

/-- The depth of the library is exceeded exactly by circular chains, and these exceed
every depth. -/
theorem circular_iff (s : Surroundings) (base : Nat) (ch : Chain) :
    ((s.chain base ch).circular = true ↔ s.Circular ch) ∧
      (s.Circular ch ↔ ∀ depth, (s.chainWith (s.subchain depth) false base ch).1.circular =
        true) := by
  have hchain : (s.chain base ch).circular = true ↔ s.Circular ch := by
    rw [chain, exhausted_iff]
    exact deep_iff_circular (Nat.le_succ _)
  refine ⟨hchain, fun h depth => ?_, fun h => ?_⟩
  · exact (s.exhausted_iff depth false base ch).2 (h.deep _)
  · exact hchain.1 (h _)

end Surroundings

end EffectChain
