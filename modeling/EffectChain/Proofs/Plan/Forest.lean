import Mathlib.Data.List.Induction
import Mathlib.Data.List.Nodup
import Mathlib.Logic.Relation
import EffectChain.Plan.Lower

/-!
# EffectChain.Proofs.Plan.Forest

Steps as a forest.

A step takes results of steps before it, and each result is taken at most once.  So the
steps are trees, each with its root last, and what is not taken yet are the roots
(`Forest`): a new step takes the last of them and becomes a root itself.

* `Forest.append`, `Forest.map`, `Forest.setOut` — how forests are put together;
* `Forest.temps`, `Forest.taken_or_root`, `Forest.linked` — numbers and links of the steps;
* `Forest.block` — what can be reached from a root is a stretch of numbers that ends with
  the root.
-/

namespace EffectChain

/-- The step whose result a value is. -/
def Value.temp? : Value → Option Nat
  | .ref ⟨.temp, n⟩ => some n
  | _ => none

namespace Step

/-- The steps whose results are arguments. -/
def refs (s : Step) : List Nat := s.args.values.filterMap Value.temp?

/-- The steps whose results are taken, as the input or as arguments. -/
def uses (s : Step) : List Nat := s.source.toList ++ s.refs

end Step

/-- Steps that are numbered from `base` on, and those of them that no step takes.  A step
takes the last roots there are, which stand under the guards and loops it stands under;
one that is its input is not written anywhere. -/
inductive Forest (base : Nat) : List Step → List Step → Prop
  | nil : Forest base [] []
  | snoc {steps roots taken : List Step} {st : Step} (before : Forest base steps (roots ++ taken))
      (temp : st.temp = base + steps.length) (uses : st.uses.Perm (taken.map Step.temp))
      (context : ∀ t ∈ taken, t.guards = st.guards ∧ t.repetition = st.repetition)
      (unwritten : ∀ t ∈ taken, st.source = some t.temp → t.out = none) :
      Forest base (steps ++ [st]) (roots ++ [st])

namespace Forest

variable {base : Nat} {steps roots : List Step}

/-! ## putting forests together -/

/-- A forest after a forest. -/
theorem append {steps' roots' : List Step} (h : Forest base steps roots)
    (h' : Forest (base + steps.length) steps' roots') :
    Forest base (steps ++ steps') (roots ++ roots') := by
  induction h' with
  | nil => simpa using h
  | snoc _ temp uses context unwritten ih =>
      rw [← List.append_assoc, ← List.append_assoc]
      refine .snoc ?_ ?_ uses context unwritten
      · rwa [List.append_assoc]
      · rw [temp, List.length_append, Nat.add_assoc]

/-- Steps that change in the same way where they were the same. -/
theorem map {f : Step → Step} (h : Forest base steps roots) (htemp : ∀ s, (f s).temp = s.temp)
    (huses : ∀ s, (f s).uses = s.uses) (hsource : ∀ s, (f s).source = s.source)
    (hout : ∀ s, (f s).out = s.out)
    (hcontext : ∀ s t, s.guards = t.guards → s.repetition = t.repetition →
      (f s).guards = (f t).guards ∧ (f s).repetition = (f t).repetition) :
    Forest base (steps.map f) (roots.map f) := by
  induction h with
  | nil => exact .nil
  | @snoc steps roots taken st before temp uses context unwritten ih =>
      rw [List.map_append, List.map_append] at *
      refine .snoc ih (by simpa [htemp] using temp) ?_ ?_ ?_
      · have hsame : (taken.map f).map Step.temp = taken.map Step.temp := by simp [htemp]
        rw [huses, hsame]
        exact uses
      · intro t' ht'
        obtain ⟨t, ht, rfl⟩ := List.mem_map.1 ht'
        exact hcontext t st (context t ht).1 (context t ht).2
      · intro t' ht'
        obtain ⟨t, ht, rfl⟩ := List.mem_map.1 ht'
        rw [hsource, htemp, hout]
        exact unwritten t ht

/-! ## numbers -/

/-- Every step has the number of its place. -/
theorem temps (h : Forest base steps roots) :
    steps.map Step.temp = List.range' base steps.length := by
  induction h with
  | nil => rfl
  | snoc _ temp _ _ _ ih =>
      rw [List.map_append, ih, List.length_append, List.length_singleton, List.range'_concat,
        List.map_singleton, temp, Nat.one_mul]

/-- A step of a forest stands at its number. -/
theorem temp_of_get? (h : Forest base steps roots) {i : Nat} {s : Step} (hs : steps[i]? = some s) :
    s.temp = base + i := by
  obtain ⟨hi, rfl⟩ := List.getElem?_eq_some_iff.1 hs
  have hget := congrArg (·[i]?) h.temps
  simpa [hi] using hget

theorem temp_bounds (h : Forest base steps roots) {s : Step} (hs : s ∈ steps) :
    base ≤ s.temp ∧ s.temp < base + steps.length := by
  have hmem : s.temp ∈ List.range' base steps.length := h.temps ▸ List.mem_map_of_mem hs
  simpa using hmem

/-- Steps with the same number are the same. -/
theorem eq_of_temp (h : Forest base steps roots) {s t : Step} (hs : s ∈ steps) (ht : t ∈ steps)
    (heq : s.temp = t.temp) : s = t := by
  have hnodup : (steps.map Step.temp).Nodup := h.temps ▸ List.nodup_range'
  exact List.inj_on_of_nodup_map hnodup hs ht heq

/-- The roots of a forest are among its steps. -/
theorem mem_of_root (h : Forest base steps roots) {t : Step} (ht : t ∈ roots) : t ∈ steps := by
  induction h with
  | nil => exact ht
  | snoc _ _ _ _ _ ih =>
      rcases List.mem_append.1 ht with ht | ht
      · exact List.mem_append_left _ (ih (List.mem_append_left _ ht))
      · exact List.mem_append_right _ ht

/-- The output of the only root is set. -/
theorem setOut {st : Step} (h : Forest base steps [st]) (o : Surface) :
    Forest base (Surroundings.setOut st.temp o steps) [{ st with out := some o }] := by
  generalize hroots : [st] = roots at h
  cases h with
  | nil => cases hroots
  | @snoc steps roots taken st' before temp uses context unwritten =>
      have hlast : [] ++ [st] = roots ++ [st'] := hroots
      obtain ⟨rfl, hst⟩ := List.append_inj' hlast rfl
      obtain rfl := List.singleton_inj.1 hst
      have hothers : steps.map (fun s => if s.temp = st.temp then { s with out := some o } else s) =
          steps := by
        refine (List.map_congr_left fun s hs => ?_).trans (List.map_id steps)
        have hlt := (before.temp_bounds hs).2
        rw [if_neg (by omega), id]
      rw [Surroundings.setOut, List.map_append, hothers, List.map_singleton, if_pos rfl]
      change Forest base _ ([] ++ [_])
      exact .snoc before temp uses context unwritten

/-! ## links -/

/-- Every step is taken once or a root. -/
theorem taken_or_root (h : Forest base steps roots) :
    (steps.flatMap Step.uses ++ roots.map Step.temp).Perm (List.range' base steps.length) := by
  induction h with
  | nil => exact .nil
  | @snoc steps roots taken st _ temp uses _ _ ih =>
      rw [List.length_append, List.length_singleton, List.range'_concat, Nat.one_mul, ← temp]
      refine List.perm_iff_count.2 fun n => ?_
      have hbefore := ih.count_eq n
      have hst := uses.count_eq n
      simp only [List.flatMap_append, List.flatMap_singleton, List.map_append, List.map_singleton,
        List.count_append] at hbefore ⊢
      omega

/-- What a step takes are results of steps before it, which stand under the same guards
and loops; the one that is its input is not written anywhere. -/
theorem linked (h : Forest base steps roots) {s : Step} (hs : s ∈ steps) {n : Nat}
    (hn : n ∈ s.uses) :
    ∃ t ∈ steps, t.temp = n ∧ n < s.temp ∧ t.guards = s.guards ∧ t.repetition = s.repetition ∧
      (s.source = some n → t.out = none) := by
  induction h with
  | nil => simp at hs
  | @snoc steps roots taken st before temp uses context unwritten ih =>
      rcases List.mem_append.1 hs with hs | hs
      · obtain ⟨t, ht, hlink⟩ := ih hs
        exact ⟨t, List.mem_append_left _ ht, hlink⟩
      · obtain rfl := List.mem_singleton.1 hs
        obtain ⟨t, ht, rfl⟩ := List.mem_map.1 (uses.mem_iff.1 hn)
        have hmem := before.mem_of_root (List.mem_append_right roots ht)
        refine ⟨t, List.mem_append_left _ hmem, rfl, ?_, (context t ht).1, (context t ht).2,
          unwritten t ht⟩
        rw [temp]
        exact (before.temp_bounds hmem).2

end Forest

/-! ## stretches -/

/-- The step numbered `a` takes the result of the step numbered `b`. -/
def Takes (steps : List Step) (a b : Nat) : Prop := ∃ s ∈ steps, s.temp = a ∧ b ∈ s.uses

/-- The step numbered `a` depends on the step numbered `b`, or is it. -/
def Reaches (steps : List Step) : Nat → Nat → Prop := Relation.ReflTransGen (Takes steps)

/-- The number after the last of the given roots. -/
def firstAfter (base : Nat) (roots : List Step) : Nat := (roots.getLast?.map (·.temp + 1)).getD base

@[simp] theorem firstAfter_concat (base : Nat) (roots : List Step) (t : Step) :
    firstAfter base (roots ++ [t]) = t.temp + 1 := by
  simp [firstAfter]

/-- Each of the roots has a number after those of the roots before it. -/
def Ascending (base : Nat) (roots : List Step) : Prop :=
  ∀ (ts : List Step) (t : Step) (rest : List Step),
    roots = ts ++ t :: rest → firstAfter base ts ≤ t.temp

/-- Roots that are taken come after those that stay. -/
theorem Ascending.firstAfter_le {base : Nat} {roots : List Step} (taken : List Step)
    (h : Ascending base (roots ++ taken)) :
    firstAfter base roots ≤ firstAfter base (roots ++ taken) := by
  induction taken using List.reverseRecOn with
  | nil => simp
  | append_singleton ts t ih =>
      rw [← List.append_assoc] at h ⊢
      have hbefore := ih fun us u rest heq => h us u (rest ++ [t]) (by simp [heq])
      have hlast := h (roots ++ ts) t [] rfl
      rw [firstAfter_concat]
      omega

/-- The stretches of roots one after another are one stretch. -/
theorem Ascending.union {base n : Nat} (taken : List Step) {roots : List Step}
    (h : Ascending base (roots ++ taken)) :
    (∃ (ts : List Step) (t : Step) (rest : List Step),
      taken = ts ++ t :: rest ∧ firstAfter base (roots ++ ts) ≤ n ∧ n ≤ t.temp) ↔
      firstAfter base roots ≤ n ∧ n < firstAfter base (roots ++ taken) := by
  induction taken generalizing roots with
  | nil => simp
  | cons t taken ih =>
      have hcons : roots ++ t :: taken = roots ++ [t] ++ taken := by simp
      have hrest := ih (hcons ▸ h)
      have hle := (hcons ▸ h : Ascending base (roots ++ [t] ++ taken)).firstAfter_le
      have hfirst := h roots t taken rfl
      rw [firstAfter_concat] at hrest hle
      rw [hcons]
      constructor
      · rintro ⟨ts, u, rest, heq, hn⟩
        cases ts with
        | nil =>
            obtain ⟨rfl, rfl⟩ := List.cons.inj heq
            simp only [List.append_nil] at hn
            omega
        | cons t' ts =>
            obtain ⟨rfl, rfl⟩ := List.cons.inj heq
            have := hrest.1 ⟨ts, u, rest, rfl, by simpa using hn⟩
            omega
      · intro hn
        by_cases hsmall : n ≤ t.temp
        · exact ⟨[], t, taken, rfl, by simpa using hn.1, hsmall⟩
        · obtain ⟨ts, u, rest, rfl, hu⟩ := hrest.2 ⟨by omega, hn.2⟩
          exact ⟨t :: ts, u, rest, rfl, by simpa using hu⟩

namespace Forest

variable {base : Nat} {steps roots : List Step}

/-- The last root is the last step. -/
theorem firstAfter_roots (h : Forest base steps roots) :
    firstAfter base roots = base + steps.length := by
  cases h with
  | nil => rfl
  | snoc _ temp _ _ _ =>
      rw [firstAfter_concat, temp, List.length_append, List.length_singleton]
      rfl

/-- What a step depends on does not depend on later steps. -/
theorem reaches_concat (h : Forest base steps roots) {st : Step}
    (htemp : st.temp = base + steps.length) {a n : Nat} (ha : a < base + steps.length) :
    Reaches (steps ++ [st]) a n ↔ Reaches steps a n := by
  constructor
  · intro hreach
    induction hreach using Relation.ReflTransGen.head_induction_on with
    | refl => exact .refl
    | @head a b hab _ ih =>
        obtain ⟨s, hs, rfl, hb⟩ := hab
        rcases List.mem_append.1 hs with hs | hs
        · obtain ⟨t, ht, rfl, -⟩ := h.linked hs hb
          exact .head ⟨s, hs, rfl, hb⟩ (ih (h.temp_bounds ht).2)
        · obtain rfl := List.mem_singleton.1 hs
          omega
  · refine Relation.ReflTransGen.mono (fun a b hab => ?_) a n
    obtain ⟨s, hs, hab⟩ := hab
    exact ⟨s, List.mem_append_left _ hs, hab⟩

/-- A step depends on itself and on what those depend on whose results it takes. -/
theorem reaches_last (h : Forest base steps roots) {st : Step}
    (htemp : st.temp = base + steps.length) {n : Nat}
    (huses : ∀ b ∈ st.uses, b < base + steps.length) :
    Reaches (steps ++ [st]) st.temp n ↔ n = st.temp ∨ ∃ b ∈ st.uses, Reaches steps b n := by
  have htakes : ∀ b, Takes (steps ++ [st]) st.temp b ↔ b ∈ st.uses := by
    intro b
    constructor
    · rintro ⟨s, hs, hsame, hb⟩
      rcases List.mem_append.1 hs with hs | hs
      · have := (h.temp_bounds hs).2
        omega
      · rwa [List.mem_singleton.1 hs] at hb
    · exact fun hb => ⟨st, by simp, rfl, hb⟩
  rw [Reaches, Relation.ReflTransGen.cases_head_iff, eq_comm]
  refine or_congr_right (exists_congr fun b => ?_)
  rw [htakes]
  exact and_congr_right fun hb => h.reaches_concat htemp (huses b hb)

/-- What a root depends on is the stretch of numbers from the root before it on. -/
theorem block (h : Forest base steps roots) :
    ∀ (ts : List Step) (t : Step) (rest : List Step), roots = ts ++ t :: rest →
      ∀ n, Reaches steps t.temp n ↔ firstAfter base ts ≤ n ∧ n ≤ t.temp := by
  induction h with
  | nil => simp
  | @snoc steps roots taken st before temp uses context unwritten ih =>
      have hascending : Ascending base (roots ++ taken) :=
        fun ts t rest heq => ((ih ts t rest heq _).1 .refl).1
      intro ts t rest heq n
      cases rest using List.reverseRecOn with
      | nil =>
          obtain ⟨rfl, hst⟩ := List.append_inj' heq rfl
          obtain rfl := List.singleton_inj.1 hst
          have huses : ∀ b ∈ st.uses, b < base + steps.length := by
            intro b hb
            obtain ⟨u, hu, rfl⟩ := List.mem_map.1 (uses.mem_iff.1 hb)
            exact (before.temp_bounds (before.mem_of_root (List.mem_append_right roots hu))).2
          have hunion : (∃ b ∈ st.uses, Reaches steps b n) ↔
              firstAfter base roots ≤ n ∧ n < firstAfter base (roots ++ taken) := by
            rw [← hascending.union]
            constructor
            · rintro ⟨b, hb, hreach⟩
              obtain ⟨u, hu, rfl⟩ := List.mem_map.1 (uses.mem_iff.1 hb)
              obtain ⟨us, vs, rfl⟩ := List.append_of_mem hu
              exact ⟨us, u, vs, rfl, (ih (roots ++ us) u vs (by simp) n).1 hreach⟩
            · rintro ⟨us, u, vs, rfl, hn⟩
              refine ⟨u.temp, uses.mem_iff.2 (by simp), (ih (roots ++ us) u vs (by simp) n).2 hn⟩
          have hle := hascending.firstAfter_le
          rw [before.reaches_last temp huses, hunion]
          rw [before.firstAfter_roots] at hle ⊢
          omega
      | append_singleton rest u =>
          have hsplit : roots ++ [st] = (ts ++ t :: rest) ++ [u] := by simpa using heq
          obtain ⟨rfl, -⟩ := List.append_inj' hsplit rfl
          have hmem : t ∈ steps := before.mem_of_root (by simp)
          rw [before.reaches_concat temp (before.temp_bounds hmem).2]
          exact ih ts t (rest ++ taken) (by simp) n

end Forest

end EffectChain
