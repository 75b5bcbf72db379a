import EffectChain.Proofs.Number.Value
import EffectChain.Proofs.Plan.Problems

/-!
# EffectChain.Proofs.Plan.Rounds

How often the steps of a chain statement run that stands in loops.

A nest is a chain statement that lowering comes to, with the loops around it.  Lowering multiplies
the counts of the loops from the inside out, step by step, and every product stops at the limit.

* `Surroundings.Nest.steps` — the steps run as often as the product of the counts says, up to the
  limit;
* `Surroundings.traced_block` — every step and every problem of a loop in a block is one of a nest;
* `Repeat.times64_eq` — the products are those of 64-bit integers, none of which wraps around;
* `Repeat.inFrame_truncated` — a count that is computed in a frame multiplies as it is cut to a
  whole number between zero and the limit;
* `loops_multiply` — all of that for the steps and the problems of a plan.
-/

namespace EffectChain

open Emitted Number

/-! ## whole numbers of rounds -/

theorem value_maxRepeat :
    isFinite (ofInt maxRepeat) = true ∧ value (ofInt maxRepeat) = maxRepeat := by
  obtain ⟨hfinite, hsign, hvalue⟩ := ofInt_natCast (n := maxRepeat) (by decide)
  exact ⟨hfinite, by rw [value, hsign, if_neg (by decide), hvalue]⟩

/-- Zero is a finite float of value zero. -/
theorem value_zero : isFinite (0 : Float) = true ∧ value 0 = 0 := by
  have hparts : Parts.of (0 : Float) = ⟨0, minExponent⟩ := by decide +kernel
  refine ⟨by decide +kernel, ?_⟩
  rw [value, hparts]
  simp [Parts.value]

/-- A number is more than the limit if its whole part is, once it is not below zero. -/
theorem maxRepeat_lt_iff {x : Float} (hx : isNotANumber x = false) :
    ofInt maxRepeat < x ↔ maxRepeat < value x := by
  obtain ⟨hfinite, hvalue⟩ := value_maxRepeat
  rw [gt_iff_value hx hfinite, hvalue]

theorem lt_zero_iff {x : Float} (hx : isNotANumber x = false) : x < 0 ↔ value x < 0 := by
  obtain ⟨hfinite, hvalue⟩ := value_zero
  rw [lt_iff_value hx hfinite, hvalue]

theorem le_zero_iff {x : Float} (hx : isNotANumber x = false) : x ≤ 0 ↔ value x ≤ 0 := by
  obtain ⟨hfinite, hvalue⟩ := value_zero
  rw [le_iff_value hx hfinite, hvalue]

/-- The whole part of a number, with its sign. -/
theorem integerPart_of_value_nonneg {x : Float} (hx : 0 ≤ value x) :
    integerPart x = ⌊value x⌋₊ := by
  have hnonneg := (Parts.of x).value_nonneg
  rw [integerPart_eq]
  unfold value at hx ⊢
  split at hx
  · next hsign =>
    have hzero : (Parts.of x).value = 0 := by linarith
    rw [if_pos hsign, if_pos hsign, hzero]
    simp
  · next hsign => rw [if_neg hsign, if_neg hsign]

theorem value_round_eq (x : Float) :
    value (round x) = if isNegative x then -(⌊(Parts.of x).value + 1 / 2⌋₊ : ℚ)
      else ⌊(Parts.of x).value + 1 / 2⌋₊ := by
  obtain ⟨-, -, hsign, hvalue⟩ := value_round x
  rw [value, hsign, hvalue]

/-- A count is the whole number nearest to what is written; below a half it is zero. -/
theorem roundedCount_eq (x : Float) :
    roundedCount x = if isNotANumber x then 0 else ⌊value x + 1 / 2⌋₊ := by
  obtain ⟨-, hnumber, -, -⟩ := value_round x
  have hnonneg := (Parts.of x).value_nonneg
  unfold roundedCount
  rw [isNaN_eq, hnumber]
  cases hx : isNotANumber x with
  | true => rfl
  | false =>
    have hfloor : ⌊value (Number.round x)⌋₊ = ⌊value x + 1 / 2⌋₊ := by
      rw [value_round_eq, value]
      split
      · rw [Nat.floor_of_nonpos (by simp), eq_comm, Nat.floor_eq_zero]
        linarith
      · rw [Nat.floor_natCast]
    simp only [Bool.false_or, decide_eq_true_eq, le_zero_iff (hnumber.trans hx), Bool.false_eq_true,
      if_false]
    rw [← hfloor]
    split
    · next hle => rw [Nat.floor_of_nonpos hle]
    · next hlt => rw [integerPart_of_value_nonneg (not_le.1 hlt).le, Int.toNat_natCast]

/-- A number cut to a whole number between zero and the limit; what is no number counts as zero. -/
def truncated (x : Float) : Nat := if isNotANumber x then 0 else min ⌊value x⌋₊ maxRepeat

namespace Repeat

/-- A count is its number cut to a whole one. -/
theorem countOf_eq (x : Float) : countOf x = truncated x := by
  unfold countOf truncated
  rw [isNaN_eq]
  cases hx : isNotANumber x with
  | true => rfl
  | false =>
    simp only [Bool.false_or, decide_eq_true_eq, lt_zero_iff hx, gt_iff_lt, maxRepeat_lt_iff hx,
      Bool.false_eq_true, if_false]
    split
    · next hneg => rw [Nat.floor_of_nonpos hneg.le, Nat.zero_min, Nat.cast_zero]
    · next hnonneg =>
      rw [not_lt] at hnonneg
      split
      · next hlong => rw [min_eq_right (Nat.le_floor hlong.le)]
      · next hshort =>
            rw [min_eq_left (Nat.floor_le_of_le (not_lt.1 hshort)),
              integerPart_of_value_nonneg hnonneg]

/-- The product of two counts is capped when it passes the cap. -/
theorem times_capped_iff {a b : Int} (ha : 0 < a) (hb : 0 < b) :
    (times a b).2 = true ↔ maxRepeat < a * b := by
  have hpos : ¬((decide (a ≤ 0) || decide (b ≤ 0)) = true) := by simp; omega
  unfold times
  rw [if_neg hpos, ← Int.ediv_lt_iff_lt_mul hb]
  split
  · next hlt => simpa using hlt
  · next hle => simpa using hle

/-- The product of two counts, in 64-bit integers that wrap around. -/
def times64 (a b : Int64) : Int64 × Bool :=
  let limit := Int64.ofNat maxRepeat
  if a ≤ 0 || b ≤ 0 then (0, false)
  else if a > limit / b then (limit, true)
  else (a * b, false)

/-- No product of counts wraps around. -/
theorem times64_eq (a b : Int64) :
    ((times64 a b).1.toInt, (times64 a b).2) = times a.toInt b.toInt := by
  have hlimit : (Int64.ofNat maxRepeat).toInt = maxRepeat := by decide
  unfold times64 times
  simp only [Int64.le_iff_toInt_le, Int64.toInt_zero]
  split
  · rfl
  · next hpos =>
    simp only [Bool.or_eq_true, decide_eq_true_eq, not_or, not_le] at hpos
    obtain ⟨ha, hb⟩ := hpos
    have hdiv : (Int64.ofNat maxRepeat / b).toInt = maxRepeat / b.toInt := by
      rw [Int64.toInt_div_of_ne_left _ _ (by decide), hlimit,
        Int.tdiv_eq_ediv_of_nonneg (by decide)]
    simp only [gt_iff_lt, Int64.lt_iff_toInt_lt, hdiv]
    split
    · rw [hlimit]
    · next hle =>
      have hshort := (Int.le_ediv_iff_mul_le hb).1 (not_lt.1 hle)
      have hmul := Int.mul_pos ha hb
      rw [Int64.toInt_mul, Int.bmod_eq_of_le]
      · change -(9223372036854775808 : Int) ≤ _
        omega
      · have hmax : (maxRepeat : Int) = 1024 := rfl
        change _ < (9223372036854775808 : Int)
        omega

/-- A count with a factor that is computed in the frame, up to the limit. -/
theorem inFrame_truncated {r : Repeat} (hr : 0 < r.count) (env : Env) :
    r.inFrame env =
      min (r.count * (r.factor.elim 1 fun d => truncated ((d.eval env).number?.getD 0) : Nat))
        maxRepeat := by
  rw [inFrame_eq hr]
  cases r.factor with
  | none => simp [Part.roundsIn, hr.le]
  | some d => simp [Part.roundsIn, Dynamic.countIn, countOf_eq, hr.le]

end Repeat

/-! ## loops -/

/-- A loop around statements: the number it is written with, or what is computed in every frame. -/
structure Round where
  pos : Pos
  written : Option Float := none
  factor : Option Dynamic := none

namespace Round

/-- How often the body runs as it is written; once when that is computed or not said at all. -/
def count (l : Round) : Nat := l.written.elim 1 roundedCount

/-- The problem of a count above the limit. -/
def tooLong (l : Round) : List Diagnostic :=
  match l.written with
  | some x =>
      if maxRepeat < roundedCount x then [{ problem := .loopTooLong x, pos := l.pos }] else []
  | none => []

/-- A round is too long when its written count passes the cap. -/
theorem mem_tooLong {l : Round} {d : Diagnostic} : d ∈ l.tooLong ↔
    ∃ x, l.written = some x ∧ maxRepeat < l.count ∧
    d = { problem := .loopTooLong x, pos := l.pos } := by
  obtain ⟨pos, _ | x, factor⟩ := l
  · simp [tooLong]
  · by_cases h : maxRepeat < roundedCount x <;> simp [tooLong, count, h]

/-- How often the innermost statements run, before any limit. -/
def product (ls : List Round) : Nat := (ls.map count).prod

/-- What is computed in the frame; that of an inner loop stands before that of an outer one. -/
def factor? (ls : List Round) : Option Dynamic := ls.foldr (fun l f => f.or l.factor) none

/-- How often the steps of a chain statement run that stands in loops, the outermost first. -/
def repetition (ls : List Round) : Repeat := ⟨(min (product ls) maxRepeat : Nat), factor? ls⟩

end Round

/-- A step of a chain statement that stands in loops. -/
def Step.inLoops (ls : List Round) (st : Step) : Step :=
  { st with repetition := Round.repetition ls }

/-- A loop as its count says. -/
def Bindings.round? (vars : Bindings) (count : Option Expr) (pos : Pos) : Option Round :=
  match count with
  | none => some { pos }
  | some e =>
    match vars.scalar? e with
    | some (.scalar x) => some { pos, written := some x }
    | some (.dynamic d) => some { pos, factor := some d }
    | _ => none

/-- A round stands at the place of its loop. -/
theorem Bindings.round?_pos {vars : Bindings} {count : Option Expr} {pos : Pos} {l : Round}
    (h : vars.round? count pos = some l) : l.pos = pos := by
  unfold round? at h
  split at h
  · exact (Option.some.inj h) ▸ rfl
  · split at h
    · exact (Option.some.inj h) ▸ rfl
    · exact (Option.some.inj h) ▸ rfl
    · simp at h

/-- A whole number of rounds is above the limit when the number it is rounded from is. -/
theorem maxRepeat_lt_round_iff {x : Float} (hx : isNotANumber x = false) :
    ofInt maxRepeat < Number.round x ↔ maxRepeat < roundedCount x := by
  obtain ⟨-, hnumber, -, -⟩ := value_round x
  have hnonneg := (Parts.of x).value_nonneg
  rw [maxRepeat_lt_iff (hnumber.trans hx), roundedCount_eq, hx, if_neg (by decide),
    value_round_eq, value]
  split
  · have hfloor : ⌊-(Parts.of x).value + 1 / 2⌋₊ = 0 := by
      rw [Nat.floor_eq_zero]
      linarith
    rw [hfloor]
    constructor
    · intro h
      have : (0 : ℚ) ≤ ⌊(Parts.of x).value + 1 / 2⌋₊ := Nat.cast_nonneg _
      have : (0 : ℚ) ≤ maxRepeat := Nat.cast_nonneg _
      linarith
    · exact fun h => absurd h (Nat.not_lt_zero _)
  · exact Nat.cast_lt

/-- A loop runs as often as it is written, up to the limit. -/
theorem Surroundings.loopCount_eq {s : Surroundings} {count : Option Expr} {pos : Pos} {l : Round}
    (hl : s.vars.round? count pos = some l) :
    ∃ ds, OfCalls ds ∧ s.loopCount count pos = (some (min l.count maxRepeat, l.factor),
      ds ++ l.tooLong) := by
  cases count with
  | none =>
    obtain rfl := Option.some.inj hl
    exact ⟨[], ofCalls_nil, rfl⟩
  | some e =>
    have hvalue := s.checker.scalar_value s.vars e "loop count"
    have hcalls := @Checker.ofCalls_scalar s.checker s.vars e none none "loop count"
    unfold Bindings.round? at hl
    unfold loopCount
    dsimp only at hl ⊢
    rw [← hvalue] at hl
    generalize s.checker.scalar s.vars e none none "loop count" = r at hl hcalls ⊢
    obtain ⟨v, ds⟩ := r
    dsimp only at hl hcalls ⊢
    refine ⟨ds, hcalls, ?_⟩
    cases v with
    | none => simp at hl
    | some v =>
      cases v with
      | scalar x =>
        obtain rfl := Option.some.inj hl
        have hlong := maxRepeat_lt_round_iff (x := x)
        change _ = (some (min (roundedCount x) maxRepeat, none),
          ds ++ if maxRepeat < roundedCount x then [{ problem := .loopTooLong x, pos }] else [])
        dsimp only
        unfold roundedCount at hlong ⊢
        split
        · simp
        · next hpos =>
          rw [if_neg hpos] at hlong
          simp only [Bool.or_eq_true, not_or, isNaN_eq, (value_round x).2.1, Bool.not_eq_true]
            at hpos
          simp only [gt_iff_lt, hlong hpos.1]
          split
          · next hlt => rw [min_eq_right hlt.le]
          · next hle => rw [min_eq_left (not_lt.1 hle), List.append_nil]
      | dynamic d =>
        obtain rfl := Option.some.inj hl
        change _ = (some (1, some d), ds ++ [])
        rw [List.append_nil]
      | _ => simp at hl

/-- No problem of a loop that runs too long. -/
def InTime (ds : List Diagnostic) : Prop :=
  ∀ d ∈ ds, d.problem ≠ .loopsTooLong ∧ ∀ x, d.problem ≠ .loopTooLong x

/-- The problems of calls say nothing about time. -/
theorem OfCalls.inTime {ds : List Diagnostic} (h : OfCalls ds) : InTime ds := by
  intro d hd
  have hcall := h d hd
  constructor
  · intro hp
    simp [hp, Problem.ofCall] at hcall
  · intro x hp
    simp [hp, Problem.ofCall] at hcall

theorem inTime_append {ds es : List Diagnostic} : InTime (ds ++ es) ↔ InTime ds ∧ InTime es := by
  simp only [InTime, List.forall_mem_append]

/-- A count that makes no round is reported, and not as too long. -/
theorem Surroundings.inTime_loopCount {s : Surroundings} {count : Option Expr} {pos : Pos}
    (h : s.vars.round? count pos = none) :
    (s.loopCount count pos).1 = none ∧ InTime (s.loopCount count pos).2 := by
  cases count with
  | none => simp [Bindings.round?] at h
  | some e =>
    have hvalue := s.checker.scalar_value s.vars e "loop count"
    have hcalls := @Checker.ofCalls_scalar s.checker s.vars e none none "loop count"
    unfold Bindings.round? at h
    unfold loopCount
    dsimp only at h ⊢
    rw [← hvalue] at h
    generalize s.checker.scalar s.vars e none none "loop count" = r at h hcalls ⊢
    obtain ⟨v, ds⟩ := r
    dsimp only at h hcalls ⊢
    cases v with
    | none => exact ⟨rfl, hcalls.inTime⟩
    | some v =>
      cases v with
      | scalar x => simp at h
      | dynamic d => simp at h
      | boolean b => exact ⟨rfl, inTime_append.2 ⟨hcalls.inTime, by simp [InTime]⟩⟩
      | _ => exact ⟨rfl, hcalls.inTime⟩

/-- A chain statement has no problem of a loop. -/
theorem Surroundings.inTime_chain (s : Surroundings) (base : Nat) (ch : Chain) :
    InTime (s.chain base ch).problems := by
  rcases ofCalls_chainWith (s := s) (s.ofCalls_subchain _) false base ch with h
    | ⟨-, op, ds, hproblems, h⟩
  · exact h.inTime
  · rw [Surroundings.chain, hproblems]
    exact inTime_append.2 ⟨h.inTime, by simp [InTime]⟩

/-- A body that is left in its first round is not repeated. -/
def Flow.leaves : Flow → Bool
  | .leaveLoop | .finish => true
  | .onward | .nextRound => false

namespace Surroundings

variable {s s₁ s' : Surroundings} {base base₁ base' : Nat} {stmts body rest : List Stmt}
    {count : Option Expr}
  {pos : Pos} {l : Round} {ls : List Round} {ch : Chain}

/-- What a loop comes to. -/
theorem stmt_repeated (base : Nat) (body : List Stmt) (hl : s.vars.round? count pos = some l) :
    ∃ ds, OfCalls ds ∧ (s.stmt base (.repeated count body pos)).out =
      notes (ds ++ l.tooLong) ++
        if l.count = 0 then note .loopNeverRuns pos
        else if (block { s with loops := s.loops + 1 } base body).flow.leaves then
          (block { s with loops := s.loops + 1 } base body).out
        else repeatBody (min l.count maxRepeat) l.factor pos
          (block { s with loops := s.loops + 1 } base body).out := by
  obtain ⟨ds, hcalls, hcount⟩ := loopCount_eq hl
  refine ⟨ds, hcalls, ?_⟩
  rw [stmt, hcount]
  by_cases hzero : l.count = 0
  · rw [if_pos hzero, hzero]
    rfl
  · obtain ⟨n, hn⟩ : ∃ n, min l.count maxRepeat = n + 1 :=
      Nat.exists_eq_succ_of_ne_zero (by rw [maxRepeat]; omega)
    rw [if_neg hzero, hn]
    cases hflow : (block { s with loops := s.loops + 1 } base body).flow
      <;> simp [hflow, Flow.leaves]

/-! ## nests -/

/-- Lowering the statements after `base` steps comes to a chain statement in loops, the outermost
first; a loop that is left in its first round is none of them. -/
inductive Nest : Surroundings → Nat → List Stmt → List Round → Surroundings → Nat → Chain → Prop
  | run {s : Surroundings} {base : Nat} {ch : Chain} {pos : Pos} {rest : List Stmt} :
      Nest s base (.run ch pos :: rest) [] s base ch
  | arm {s s₁ s' : Surroundings} {base base₁ base' : Nat} {arms : List Branch}
      {otherwise : Option (List Stmt)}
      {pos : Pos} {rest body : List Stmt} {f : Fork} {ls : List Round} {ch : Chain}
      (hf : Fork.Leads base { s, arms } f)
        (hbody : f.block? base otherwise = some (s₁, base₁, body))
      (h : Nest s₁ base₁ body ls s' base' ch) : Nest s base (.choose arms otherwise pos :: rest) ls
        s' base' ch
  | loop {s s' : Surroundings} {base base' : Nat} {count : Option Expr} {body rest : List Stmt}
      {pos : Pos} {l : Round}
      {ls : List Round} {ch : Chain} (hl : s.vars.round? count pos = some l) (hpos : 0 < l.count)
      (hflow : (block { s with loops := s.loops + 1 } base body).flow.leaves = false)
      (h : Nest { s with loops := s.loops + 1 } base body ls s' base' ch) :
      Nest s base (.repeated count body pos :: rest) (l :: ls) s' base' ch
  | once {s s' : Surroundings} {base base' : Nat} {count : Option Expr} {body rest : List Stmt}
      {pos : Pos} {l : Round}
      {ls : List Round} {ch : Chain} (hl : s.vars.round? count pos = some l) (hpos : 0 < l.count)
      (hflow : (block { s with loops := s.loops + 1 } base body).flow.leaves = true)
      (h : Nest { s with loops := s.loops + 1 } base body ls s' base' ch) :
      Nest s base (.repeated count body pos :: rest) ls s' base' ch
  | later {s s' : Surroundings} {base base' : Nat} {st : Stmt} {rest : List Stmt} {ls : List Round}
      {ch : Chain}
      (hflow : (s.stmt base st).flow = .onward)
      (h : Nest { s with vars := (s.stmt base st).vars } (base + (s.stmt base st).out.steps.length)
        rest ls s' base' ch) :
      Nest s base (st :: rest) ls s' base' ch

/-- Every count of a nest is positive. -/
theorem Nest.positive (h : Nest s base stmts ls s' base' ch) : ∀ l ∈ ls, 0 < l.count := by
  induction h with
  | run => simp
  | loop _ hpos _ _ ih => simpa using ⟨hpos, ih⟩
  | arm _ _ _ ih | once _ _ _ _ ih | later _ _ ih => exact ih

/-! ## steps -/

/-- A product that stops at the limit at every level stops at the limit once. -/
theorem min_mul_min {M a b : Nat} (ha : 0 < a) (hb : 0 < b) :
    min (min a M * min b M) M = min (a * b) M := by
  rcases Nat.le_total a M with hle | hle
  · rcases Nat.le_total b M with hle' | hle'
    · rw [min_eq_left hle, min_eq_left hle']
    · rw [min_eq_left hle, min_eq_right hle', min_eq_right (Nat.le_mul_of_pos_left M ha),
        min_eq_right (hle'.trans (Nat.le_mul_of_pos_left b ha))]
  · have hlong : M ≤ a * b := hle.trans (Nat.le_mul_of_pos_right a hb)
    rcases Nat.eq_zero_or_pos M with rfl | hM
    · simp
    · rw [min_eq_right hle, min_eq_right hlong, min_eq_right (Nat.le_mul_of_pos_right M (by omega))]

theorem product_pos (h : ∀ l ∈ ls, 0 < l.count) : 0 < Round.product ls := by
  refine List.prod_pos fun n hn => ?_
  obtain ⟨l, hl, rfl⟩ := List.mem_map.1 hn
  exact h l hl

/-- A loop around others is one more factor; the steps it takes to the limit are noted. -/
theorem repeated_repetition (hpos : 0 < l.count) (h : ∀ l ∈ ls, 0 < l.count) (st : Step) :
    (repeated (min l.count maxRepeat) l.factor (st.inLoops ls)).1 = st.inLoops (l :: ls) ∧
      ((repeated (min l.count maxRepeat) l.factor (st.inLoops ls)).2.1 = true ↔
        maxRepeat < min (Round.product ls) maxRepeat * min l.count maxRepeat) := by
  have hproduct := product_pos h
  have ha : (0 : Int) < (min (Round.product ls) maxRepeat : Nat) := by
    rw [maxRepeat]
    omega
  have hb : (0 : Int) < (min l.count maxRepeat : Nat) := by
    rw [maxRepeat]
    omega
  have htimes :
      (Repeat.times (min (Round.product ls) maxRepeat : Nat) (min l.count maxRepeat : Nat)).1 =
      (min (Round.product (l :: ls)) maxRepeat : Nat) := by
    rw [Repeat.times_eq_min ha, Int.toNat_natCast, ← Nat.cast_mul, ← Nat.cast_min,
      min_mul_min hproduct hpos, Nat.mul_comm]
    rfl
  have hcapped := Repeat.times_capped_iff ha hb
  rw [← Nat.cast_mul, Nat.cast_lt] at hcapped
  rw [← hcapped]
  unfold repeated Step.inLoops Round.repetition Round.factor?
  dsimp only
  rw [htimes, List.foldr_cons]
  generalize List.foldr _ none ls = f
  cases l.factor <;> cases f <;> exact ⟨rfl, Iff.rfl⟩

/-- Steps that stand among others from a number on, which those begin before. -/
def From (base : Nat) (all : List Step) (base' : Nat) (own : List Step) : Prop :=
  ∃ pre post, all = pre ++ own ++ post ∧ base' = base + pre.length

theorem From.refl (base : Nat) (own : List Step) : From base own base own := ⟨[], [], by simp, rfl⟩

/-- What lies in a part of a block lies in the block. -/
theorem From.trans {all mid own : List Step} (h : From base all base₁ mid)
    (h' : From base₁ mid base' own) :
    From base all base' own := by
  obtain ⟨pre, post, rfl, rfl⟩ := h
  obtain ⟨pre', post', rfl, rfl⟩ := h'
  exact ⟨pre ++ pre', post' ++ post, by simp, by simp [Nat.add_assoc]⟩

theorem From.map {all own : List Step} (h : From base all base' own) (f : Step → Step) :
    From base (all.map f) base' (own.map f) := by
  obtain ⟨pre, post, rfl, rfl⟩ := h
  exact ⟨pre.map f, post.map f, by simp, by simp⟩

theorem from_block (s : Surroundings) (base : Nat) (st : Stmt) (rest : List Stmt) :
    From base (s.block base (st :: rest)).out.steps base (s.stmt base st).out.steps := by
  obtain ⟨more, hmore⟩ := block_append s base st rest
  exact ⟨[], more.steps, by rw [hmore]; rfl, rfl⟩

/-- The steps of a loop are those of its body, repeated unless the body is left. -/
theorem steps_repeated (hl : s.vars.round? count pos = some l) (hpos : 0 < l.count) :
    (s.stmt base (.repeated count body pos)).out.steps =
      if (block { s with loops := s.loops + 1 } base body).flow.leaves then
        (block { s with loops := s.loops + 1 } base body).out.steps
      else (block { s with loops := s.loops + 1 } base body).out.steps.map fun st =>
        (repeated (min l.count maxRepeat) l.factor st).1 := by
  obtain ⟨ds, -, hout⟩ := stmt_repeated base body hl
  rw [hout, if_neg hpos.ne']
  split <;> simp [repeatBody]

/-- The steps of a chain statement run as often as the loops around it say. -/
theorem Nest.steps (h : Nest s base stmts ls s' base' ch) :
    From base (s.block base stmts).out.steps base'
      ((s'.chain base' ch).steps.map (Step.inLoops ls)) := by
  induction h with
  | @run s base ch pos rest =>
      have honce : (s.chain base ch).steps.map (Step.inLoops []) = (s.chain base ch).steps := by
        refine (List.map_congr_left fun st hst => ?_).trans (List.map_id _)
        rw [Step.inLoops,
          show Round.repetition [] = st.repetition from ((s.once_chain base ch st hst).2).symm]
        rfl
      rw [honce]
      have hfrom := from_block s base (.run ch pos) rest
      rwa [stmt] at hfrom
  | @arm s s₁ s' base base₁ base' arms otherwise pos rest body f ls ch hf hbody _ ih =>
      obtain ⟨pre, post, hout, rfl⟩ := Fork.block?_between hbody
      refine (from_block s base (.choose arms otherwise pos) rest).trans
        (.trans ⟨pre.steps, post.steps, ?_, rfl⟩ ih)
      rw [stmt_choose]
      change (Fork.lowered base otherwise { s, arms }).out.steps = _
      rw [← Fork.lowered_leads _ hf, hout]
      rfl
  | @loop s s' base base' count body rest pos l ls ch hl hpos hflow h ih =>
      have hrepeated := ih.map fun st => (repeated (min l.count maxRepeat) l.factor st).1
      have hmore : (fun st => (repeated (min l.count maxRepeat) l.factor st).1) ∘ Step.inLoops ls =
          Step.inLoops (l :: ls) :=
        funext fun st => (repeated_repetition hpos h.positive st).1
      rw [List.map_map, hmore] at hrepeated
      refine (from_block s base (.repeated count body pos) rest).trans ?_
      rwa [steps_repeated hl hpos, hflow, if_neg (by decide)]
  | @once s s' base base' count body rest pos l ls ch hl hpos hflow h ih =>
      refine (from_block s base (.repeated count body pos) rest).trans ?_
      rwa [steps_repeated hl hpos, hflow, if_pos rfl]
  | @later s s' base base' st rest ls ch hflow _ ih =>
      refine .trans ?_ ih
      rw [block]
      dsimp only
      rw [if_pos hflow]
      exact ⟨(s.stmt base st).out.steps, [], by simp, rfl⟩

/-- Lowering comes to the body of a loop that runs at all. -/
theorem Reaches.round {stmts' : List Stmt} (hl : s.vars.round? count pos = some l)
    (hpos : 0 < l.count) (h : Reaches { s with loops := s.loops + 1 } base body s' base' stmts') :
    Reaches s base (.repeated count body pos :: rest) s' base' stmts' := by
  obtain ⟨n, hn⟩ : ∃ n, min l.count maxRepeat = n + 1 :=
    Nat.exists_eq_succ_of_ne_zero (by rw [maxRepeat]; omega)
  obtain ⟨ds, -, hcount⟩ := loopCount_eq hl
  exact .loop (by rw [hcount, hn]) h

/-! ## problems -/

/-- The problem of a loop in a nest where the product of the counts goes past the limit. -/
def Overrun (ls : List Round) (d : Diagnostic) : Prop :=
  ∃ outer l inner, ls = outer ++ l :: inner ∧
    maxRepeat < min (Round.product inner) maxRepeat * min l.count maxRepeat ∧
    d = { problem := .loopsTooLong, pos := l.pos }

theorem Overrun.cons {d : Diagnostic} (h : Overrun ls d) : Overrun (l :: ls) d := by
  obtain ⟨outer, m, inner, rfl, hlong, hd⟩ := h
  exact ⟨l :: outer, m, inner, rfl, hlong, hd⟩

/-- What lowering the statements comes to: steps of chain statements in their loops, and problems of
those loops. -/
structure Traced (s : Surroundings) (base : Nat) (stmts : List Stmt) (e : Emitted) : Prop where
  steps : ∀ st ∈ e.steps, ∃ ls s' base' ch, Nest s base stmts ls s' base' ch ∧
    ∃ own ∈ (s'.chain base' ch).steps, st = own.inLoops ls
  loops : ∀ d ∈ e.problems, d.problem = .loopsTooLong → ∃ ls s' base' ch,
    Nest s base stmts ls s' base' ch ∧
    (s'.chain base' ch).steps ≠ [] ∧ Overrun ls d
  counts : ∀ d ∈ e.problems, ∀ x, d.problem = .loopTooLong x → ∃ s' base' count body pos rest l,
    Reaches s base stmts s' base' (.repeated count body pos :: rest) ∧ s'.vars.round? count pos =
      some l ∧ d ∈ l.tooLong

namespace Traced

theorem append {a b : Emitted} (ha : Traced s base stmts a) (hb : Traced s base stmts b) :
    Traced s base stmts (a ++ b) where
  steps := List.forall_mem_append.2 ⟨ha.steps, hb.steps⟩
  loops := List.forall_mem_append.2 ⟨ha.loops, hb.loops⟩
  counts := List.forall_mem_append.2 ⟨ha.counts, hb.counts⟩

theorem notes {ds : List Diagnostic} (h : InTime ds) : Traced s base stmts (notes ds) where
  steps := by simp
  loops d hd hp := absurd hp (h d hd).1
  counts d hd x hp := absurd hp ((h d hd).2 x)

theorem empty : Traced s base stmts {} := notes (show InTime [] by simp [InTime])

/-- What holds in what lowering comes to from the statements holds in the statements. -/
theorem lift {e : Emitted} {stmts' : List Stmt} (h : Traced s₁ base₁ stmts' e)
    (hnest : ∀ {ls s' base' ch}, Nest s₁ base₁ stmts' ls s' base' ch →
      Nest s base stmts ls s' base' ch)
    (hreach : ∀ {s' base' rest}, Reaches s₁ base₁ stmts' s' base' rest →
      Reaches s base stmts s' base' rest) :
    Traced s base stmts e where
  steps st hst := by
    obtain ⟨ls, s', base', ch, hn, hown⟩ := h.steps st hst
    exact ⟨ls, s', base', ch, hnest hn, hown⟩
  loops d hd hp := by
    obtain ⟨ls, s', base', ch, hn, hown⟩ := h.loops d hd hp
    exact ⟨ls, s', base', ch, hnest hn, hown⟩
  counts d hd x hp := by
    obtain ⟨s', base', count, body, pos, rest, l, hr, hl⟩ := h.counts d hd x hp
    exact ⟨s', base', count, body, pos, rest, l, hreach hr, hl⟩

/-- A chain statement is traced: it is a nest without loops. -/
theorem chain (s : Surroundings) (base : Nat) (ch : Chain) (pos : Pos) (rest : List Stmt) :
    Traced s base (.run ch pos :: rest) (s.chain base ch) where
  steps st hst := by
    refine ⟨[], s, base, ch, .run, st, hst, ?_⟩
    rw [Step.inLoops,
      show Round.repetition [] = st.repetition from ((s.once_chain base ch st hst).2).symm]
  loops d hd hp := absurd hp (s.inTime_chain base ch d hd).1
  counts d hd x hp := absurd hp ((s.inTime_chain base ch d hd).2 x)

/-- The count of a loop has a problem if it is above the limit. -/
theorem ofCount {ds : List Diagnostic} (hl : s.vars.round? count pos = some l) (hds : OfCalls ds) :
    Traced s base (.repeated count body pos :: rest) (Emitted.notes (ds ++ l.tooLong)) where
  steps := by simp
  loops d hd hp := by
    rcases List.mem_append.1 hd with hd | hd
    · exact absurd hp (hds.inTime d hd).1
    · obtain ⟨x, -, -, rfl⟩ := l.mem_tooLong.1 hd
      cases hp
  counts d hd x hp := by
    rcases List.mem_append.1 hd with hd | hd
    · exact absurd hp ((hds.inTime d hd).2 x)
    · exact ⟨s, base, count, body, pos, rest, l, .here, hl, hd⟩

/-- A loop repeats the steps of its body, and has a problem where that takes one past the limit. -/
theorem repeated {e : Emitted} (hl : s.vars.round? count pos = some l) (hpos : 0 < l.count)
    (hflow : (block { s with loops := s.loops + 1 } base body).flow.leaves = false)
    (h : Traced { s with loops := s.loops + 1 } base body e) :
    Traced s base (.repeated count body pos :: rest)
      (repeatBody (min l.count maxRepeat) l.factor pos e) := by
  constructor
  · intro st hst
    simp only [repeatBody, steps_append, steps_notes, List.append_nil, List.map_map] at hst
    obtain ⟨st', hst', rfl⟩ := List.mem_map.1 hst
    obtain ⟨ls, s', base', ch, hnest, own, hown, rfl⟩ := h.steps st' hst'
    exact ⟨l :: ls, s', base', ch, .loop hl hpos hflow hnest, own, hown,
      (repeated_repetition hpos hnest.positive own).1⟩
  · intro d hd hp
    simp only [repeatBody, problems_append, problems_notes, List.mem_append] at hd
    rcases hd with (hd | hd) | hd
    · obtain ⟨ls, s', base', ch, hnest, hsteps, hover⟩ := h.loops d hd hp
      exact ⟨l :: ls, s', base', ch, .loop hl hpos hflow hnest, hsteps, hover.cons⟩
    · obtain ⟨_, -, rfl⟩ := List.mem_map.1 hd
      cases hp
    · split at hd
      · next hany =>
        obtain rfl := List.mem_singleton.1 hd
        obtain ⟨_, hmem, hcapped⟩ := List.any_eq_true.1 hany
        obtain ⟨st', hst', rfl⟩ := List.mem_map.1 hmem
        obtain ⟨ls, s', base', ch, hnest, own, hown, rfl⟩ := h.steps st' hst'
        refine ⟨l :: ls, s', base', ch, .loop hl hpos hflow hnest, List.ne_nil_of_mem hown, [], l,
          ls, rfl, ?_, ?_⟩
        · exact (repeated_repetition hpos hnest.positive own).2.1 hcapped
        · rw [Bindings.round?_pos hl]
      · cases hd
  · intro d hd x hp
    simp only [repeatBody, problems_append, problems_notes, List.mem_append] at hd
    rcases hd with (hd | hd) | hd
    · obtain ⟨s', base', count', body', pos', rest', l', hreach, hl'⟩ := h.counts d hd x hp
      exact ⟨s', base', count', body', pos', rest', l', .round hl hpos hreach, hl'⟩
    · obtain ⟨_, -, rfl⟩ := List.mem_map.1 hd
      cases hp
    · split at hd
      · obtain rfl := List.mem_singleton.1 hd
        cases hp
      · cases hd

end Traced

/-- The arms of a conditional come to what the blocks do that lowering comes to. -/
theorem traced_branches {s₀ : Surroundings} {arms₀ : List Branch} (base : Nat)
    (otherwise : Option (List Stmt)) (pos : Pos) (rest : List Stmt) (arms : List Branch)
    (s : Surroundings) (negated : List Dynamic) (before : Emitted)
    (hleads : Fork.Leads base { s := s₀, arms := arms₀ } ⟨s, negated, before, arms⟩)
    (hbefore : Traced s₀ base (.choose arms₀ otherwise pos :: rest) before)
    (hblocks : ∀ f s₁ base₁ body, Fork.Leads base { s := s₀, arms := arms₀ } f →
      f.block? base otherwise = some (s₁, base₁, body) →
      Traced s₀ base (.choose arms₀ otherwise pos :: rest) (block s₁ base₁ body).out) :
    Traced s₀ base (.choose arms₀ otherwise pos :: rest)
      (s.branches base negated before (orElse base otherwise) arms).out := by
  induction arms generalizing s negated before with
  | nil =>
      rw [branches]
      cases otherwise with
      | none => exact hbefore
      | some body => exact hbefore.append (hblocks _ _ _ _ hleads rfl)
  | cons arm more ih =>
      obtain ⟨cond, body, pos'⟩ := arm
      have hscalar := @Checker.ofCalls_scalar s.checker s.vars cond none none "condition"
      rcases hcond : s.checker.scalar s.vars cond none none "condition" with ⟨v, ds⟩
      rw [hcond] at hscalar
      have hnotes : Traced s₀ base (.choose arms₀ otherwise pos :: rest) (before ++ notes ds) :=
        hbefore.append (.notes hscalar.inTime)
      cases v with
      | none =>
          rw [branches_of_none hcond]
          exact ih s negated _ (hleads.tail (by simp [Fork.next?, hcond])) hnotes
      | some v =>
          by_cases hv : ∃ d, v = .dynamic d
          · obtain ⟨d, rfl⟩ := hv
            rw [branches_of_dynamic hcond]
            exact ih _ _ _ (hleads.tail (by simp [Fork.next?, hcond]))
              (hnotes.append (hblocks _ _ _ _ hleads (by simp [Fork.block?, hcond])))
          · have hstatic : ∀ d, v ≠ .dynamic d := fun d hd => hv ⟨d, hd⟩
            rw [branches_of_static hcond hstatic]
            split
            · next htest =>
                exact hnotes.append (hblocks _ _ _ _ hleads
                  ((Fork.block?_static otherwise hcond hstatic).trans (if_pos htest)))
            · next htest =>
                exact ih s negated _
                  (hleads.tail ((Fork.next?_static hcond hstatic).trans (if_neg htest))) hnotes

mutual

/-- A statement is traced. -/
theorem traced_stmt (st : Stmt) (s : Surroundings) (base : Nat) (rest : List Stmt) :
    Traced s base (st :: rest) (s.stmt base st).out := by
  cases st with
  | bind name value pos =>
      rw [stmt]
      exact .notes (s.vars.ofCalls_bind name value).inTime
  | run ch pos =>
      rw [stmt]
      exact .chain s base ch pos rest
  | choose arms otherwise pos =>
      rw [stmt_choose]
      refine traced_branches base otherwise pos rest arms s [] {} .refl .empty
        fun f s₁ base₁ body hleads hblock => ?_
      have hbody : Traced s₁ base₁ body (block s₁ base₁ body).out := by
        rcases Fork.block?_source hleads hblock with ⟨arm, harm, rfl⟩ | helse
        · exact traced_arms arms arm harm s₁ base₁
        · cases otherwise with
          | none => simp at helse
          | some body' =>
              obtain rfl := Option.some.inj helse
              exact traced_block body' s₁ base₁
      exact hbody.lift (.arm hleads hblock) (.arm hleads hblock)
  | repeated count body pos =>
      have hbody := traced_block body { s with loops := s.loops + 1 } base
      cases hl : s.vars.round? count pos with
      | none =>
          obtain ⟨hnone, htime⟩ := inTime_loopCount hl
          rcases hcount : s.loopCount count pos with ⟨r, ds⟩
          rw [hcount] at hnone htime
          obtain rfl : r = none := hnone
          rw [stmt, hcount]
          exact .notes htime
      | some l =>
          obtain ⟨ds, hcalls, hout⟩ := stmt_repeated base body hl
          have hown : Traced s base (.repeated count body pos :: rest)
              (Emitted.notes (ds ++ l.tooLong)) :=
            .ofCount hl hcalls
          rw [hout]
          split
          · exact hown.append (.notes (by simp [InTime]))
          · next hne =>
              have hpos := Nat.pos_of_ne_zero hne
              split
              · next hflow => exact hown.append (hbody.lift (.once hl hpos hflow) (.round hl hpos))
              · next hflow => exact hown.append (hbody.repeated hl hpos (by simpa using hflow))
  | leaveLoop pos =>
      rw [stmt]
      split
      · exact .notes (show InTime [_] by simp [InTime])
      · exact .empty
  | nextRound pos =>
      rw [stmt]
      split
      · exact .notes (show InTime [_] by simp [InTime])
      · exact .empty
  | finish pos =>
      rw [stmt]
      exact .empty

/-- Lowering a block comes to steps of chain statements in their loops, and to problems of those
loops. -/
theorem traced_block (stmts : List Stmt) (s : Surroundings) (base : Nat) :
    Traced s base stmts (s.block base stmts).out := by
  cases stmts with
  | nil =>
      rw [block]
      exact .empty
  | cons st rest =>
      have hfirst := traced_stmt st s base rest
      rw [block]
      dsimp only
      split
      · next hflow =>
            exact hfirst.append ((traced_block rest _ _).lift (.later hflow) (.later hflow))
      · refine hfirst.append (.notes fun d hd => ?_)
        obtain ⟨_, -, rfl⟩ := List.mem_map.1 hd
        simp

/-- The arms of a choice are traced. -/
theorem traced_arms (arms : List Branch) (arm : Branch) (harm : arm ∈ arms) (s : Surroundings)
    (base : Nat) :
    Traced s base arm.body (s.block base arm.body).out := by
  cases arms with
  | nil => simp at harm
  | cons first rest =>
      obtain ⟨cond, body, pos⟩ := first
      rcases List.mem_cons.1 harm with rfl | harm
      · exact traced_block body s base
      · exact traced_arms rest arm harm s base

end

/-! ## from the loops to the problems -/

/-- Lowering comes to every loop of a nest. -/
theorem Nest.reaches {outer inner : List Round}
    (h : Nest s base stmts (outer ++ l :: inner) s' base' ch) :
    ∃ s₁ base₁ count body pos rest,
    Reaches s base stmts s₁ base₁ (.repeated count body pos :: rest) ∧
      s₁.vars.round? count pos = some l ∧ 0 < l.count ∧
      (block { s₁ with loops := s₁.loops + 1 } base₁ body).flow.leaves = false ∧
      Nest { s₁ with loops := s₁.loops + 1 } base₁ body inner s' base' ch := by
  generalize hls : outer ++ l :: inner = ls at h
  induction h generalizing outer with
  | run => simp at hls
  | arm hf hbody _ ih =>
      obtain ⟨s₁, base₁, count, body, pos, rest, hreach, hrest⟩ := ih hls
      exact ⟨s₁, base₁, count, body, pos, rest, .arm hf hbody hreach, hrest⟩
  | loop hl hpos hflow h ih =>
      cases outer with
      | nil =>
          obtain ⟨rfl, rfl⟩ := List.cons.inj hls
          exact ⟨_, _, _, _, _, _, .here, hl, hpos, hflow, h⟩
      | cons m outer =>
          obtain ⟨-, htail⟩ := List.cons.inj hls
          obtain ⟨s₁, base₁, count, body, pos, rest, hreach, hrest⟩ := ih htail
          exact ⟨s₁, base₁, count, body, pos, rest, .round hl hpos hreach, hrest⟩
  | once hl hpos _ _ ih =>
      obtain ⟨s₁, base₁, count, body, pos, rest, hreach, hrest⟩ := ih hls
      exact ⟨s₁, base₁, count, body, pos, rest, .round hl hpos hreach, hrest⟩
  | later hflow _ ih =>
      obtain ⟨s₁, base₁, count, body, pos, rest, hreach, hrest⟩ := ih hls
      exact ⟨s₁, base₁, count, body, pos, rest, .later hflow hreach, hrest⟩

/-- The problem of a count is one of the block. -/
theorem tooLong_subset (hreach : Reaches s base stmts s₁ base₁ (.repeated count body pos :: rest))
    (hl : s₁.vars.round? count pos = some l) : l.tooLong ⊆ (s.block base stmts).out.problems := by
  obtain ⟨ds, -, hout⟩ := stmt_repeated base₁ body hl
  refine List.Subset.trans ?_ ((stmt_within s₁ base₁ _ rest).trans hreach.within).problems
  rw [hout]
  intro d hd
  simp [hd]

/-- Where the steps of a chain statement go past the limit, the loop has a problem. -/
theorem Nest.overrun_mem {d : Diagnostic} (h : Nest s base stmts ls s' base' ch)
    (hsteps : (s'.chain base' ch).steps ≠ []) (hd : Overrun ls d) :
    d ∈ (s.block base stmts).out.problems := by
  obtain ⟨outer, l, inner, rfl, hlong, rfl⟩ := hd
  obtain ⟨s₁, base₁, count, body, pos, rest, hreach, hl, hpos, hflow, hnest⟩ := h.reaches
  obtain ⟨ds, -, hout⟩ := stmt_repeated base₁ body hl
  refine ((stmt_within s₁ base₁ _ rest).trans hreach.within).problems ?_
  obtain ⟨own, hown⟩ := List.exists_mem_of_ne_nil _ hsteps
  obtain ⟨pre, post, hbody, -⟩ := hnest.steps
  have hmem : own.inLoops inner ∈
      (block { s₁ with loops := s₁.loops + 1 } base₁ body).out.steps := by
    rw [hbody]
    simp only [List.mem_append, List.mem_map]
    exact .inl (.inr ⟨own, hown, rfl⟩)
  have hany : ((block { s₁ with loops := s₁.loops + 1 } base₁ body).out.steps.map
      (repeated (min l.count maxRepeat) l.factor)).any (·.2.1) = true :=
    List.any_eq_true.2 ⟨_, List.mem_map_of_mem hmem,
      (repeated_repetition hpos hnest.positive own).2.2 hlong⟩
  rw [hout, if_neg hpos.ne', hflow, if_neg (by decide), Bindings.round?_pos hl]
  simp [repeatBody, hany]

@[simp] theorem product_cons (l : Round) (ls : List Round) :
    Round.product (l :: ls) = l.count * Round.product ls := rfl

/-- A level goes past the limit only if the whole product does. -/
theorem Overrun.lt_product {d : Diagnostic} (hpos : ∀ l ∈ ls, 0 < l.count) (h : Overrun ls d) :
    maxRepeat < Round.product ls := by
  obtain ⟨outer, l, inner, rfl, hlong, -⟩ := h
  have houter : 0 < Round.product outer :=
    product_pos fun m hm => hpos m (List.mem_append_left _ hm)
  calc maxRepeat < min (Round.product inner) maxRepeat * min l.count maxRepeat := hlong
    _ ≤ Round.product inner * l.count := Nat.mul_le_mul (min_le_left _ _) (min_le_left _ _)
    _ = Round.product (l :: inner) := Nat.mul_comm _ _
    _ ≤ Round.product outer * Round.product (l :: inner) := Nat.le_mul_of_pos_left _ houter
    _ = Round.product (outer ++ l :: inner) := by simp [Round.product]

/-- A product of counts within the limit goes past it at some level if it does at all. -/
theorem exists_overrun (hle : ∀ l ∈ ls, l.count ≤ maxRepeat) (h : maxRepeat < Round.product ls) :
    ∃ d, Overrun ls d := by
  induction ls with
  | nil => exact absurd h (by decide)
  | cons l ls ih =>
      rcases Nat.lt_or_ge maxRepeat (Round.product ls) with hinner | hinner
      · obtain ⟨d, hd⟩ := ih (fun m hm => hle m (List.mem_cons_of_mem l hm)) hinner
        exact ⟨d, hd.cons⟩
      · refine ⟨_, [], l, ls, rfl, ?_, rfl⟩
        rwa [min_eq_left hinner, min_eq_left (hle l List.mem_cons_self), Nat.mul_comm]

/-- The problems that the loops of a nest have for a chain statement with the given steps. -/
def Reported (ls : List Round) (steps : List Step) (d : Diagnostic) : Prop :=
  (∃ l ∈ ls, d ∈ l.tooLong) ∨ steps ≠ [] ∧ Overrun ls d

/-- The loops of a nest have a problem when one of them is written too long, or the steps in it go
past the limit by all of them together. -/
theorem exists_reported_iff (hpos : ∀ l ∈ ls, 0 < l.count) (steps : List Step) :
    (∃ d, Reported ls steps d) ↔
      (∃ l ∈ ls, maxRepeat < l.count) ∨ steps ≠ [] ∧ maxRepeat < Round.product ls := by
  constructor
  · rintro ⟨d, ⟨l, hl, hd⟩ | ⟨hsteps, hd⟩⟩
    · obtain ⟨x, -, hlong, -⟩ := l.mem_tooLong.1 hd
      exact .inl ⟨l, hl, hlong⟩
    · exact .inr ⟨hsteps, hd.lt_product hpos⟩
  · intro h
    by_cases hlong : ∃ l ∈ ls, maxRepeat < l.count
    · obtain ⟨l, hl, hlong⟩ := hlong
      obtain ⟨x, hx⟩ : ∃ x, l.written = some x := by
        rw [← Option.ne_none_iff_exists']
        intro hnone
        rw [Round.count, hnone] at hlong
        exact absurd hlong (by decide)
      exact ⟨_, .inl ⟨l, hl, l.mem_tooLong.2 ⟨x, hx, hlong, rfl⟩⟩⟩
    · obtain ⟨hsteps, hproduct⟩ := h.resolve_left hlong
      obtain ⟨d, hd⟩ := exists_overrun (fun l hl => not_lt.1 fun hlt => hlong ⟨l, hl, hlt⟩) hproduct
      exact ⟨d, .inr ⟨hsteps, hd⟩⟩

end Surroundings

open Surroundings in
/-- The steps of a chain statement run as often as the product of the counts around it says, up to
the limit, and in a frame as often again as the frame says; the limit is reported where a count is
above it, and where the product goes past it for a statement that has steps. -/
theorem loops_multiply {program : Program} {registry : Registry} {options : Options} {p : Plan}
    (hplan : program.plan registry options = .ok p) :
    (∀ ls s base ch, Nest { checker := { registry, suggest := options.suggest } } 0
      program.statements ls s base ch →
      From 0 p.steps base ((s.chain base ch).steps.map fun st =>
        { st with repetition := ⟨(min (Round.product ls) maxRepeat : Nat), Round.factor? ls⟩ }) ∧
      (∀ env, (⟨(min (Round.product ls) maxRepeat : Nat), Round.factor? ls⟩ : Repeat).inFrame env =
        (min (min (Round.product ls) maxRepeat *
          (Round.factor? ls).elim 1 fun d => truncated ((d.eval env).number?.getD 0)) maxRepeat :
            Nat)) ∧
      (∀ d, Reported ls (s.chain base ch).steps d → d.problem.code = "S002" ∧ d ∈ p.diagnostics) ∧
      ((∃ d, Reported ls (s.chain base ch).steps d) ↔
        (∃ l ∈ ls, maxRepeat < l.count) ∨ (s.chain base ch).steps ≠ [] ∧
        maxRepeat < Round.product ls)) ∧
    (∀ d ∈ p.diagnostics, d.problem = .loopsTooLong → ∃ ls s base ch,
      Nest { checker := { registry, suggest := options.suggest } } 0 program.statements ls s
        base ch ∧
      Reported ls (s.chain base ch).steps d) ∧
    (∀ d ∈ p.diagnostics, ∀ x, d.problem = .loopTooLong x → ∃ s base count body pos rest l,
      Surroundings.Reaches { checker := { registry, suggest := options.suggest } } 0
        program.statements s base
        (.repeated count body pos :: rest) ∧ s.vars.round? count pos = some l ∧ d ∈ l.tooLong) ∧
    ∀ a b : Int64, ((Repeat.times64 a b).1.toInt, (Repeat.times64 a b).2) =
      Repeat.times a.toInt b.toInt := by
  obtain ⟨out, hblock, hsteps, hproblems, -⟩ := Program.plan_block hplan
  have htraced :=
    traced_block program.statements { checker := { registry, suggest := options.suggest } } 0
  rw [hblock] at htraced
  refine ⟨fun ls s base ch hnest => ⟨?_, fun env => ?_, ?_, exists_reported_iff hnest.positive _⟩,
    ?_, ?_, Repeat.times64_eq⟩
  · have hfrom := hnest.steps
    rw [hblock, ← hsteps] at hfrom
    exact hfrom
  · have hproduct := product_pos hnest.positive
    have hcount : (0 : Int) < (min (Round.product ls) maxRepeat : Nat) := by
      rw [maxRepeat]
      omega
    rw [Repeat.inFrame_truncated (r := ⟨_, Round.factor? ls⟩) hcount, ← Nat.cast_mul,
      ← Nat.cast_min]
  · rintro d (⟨l, hl, hd⟩ | ⟨hown, hd⟩)
    · obtain ⟨outer, inner, rfl⟩ := List.append_of_mem hl
      obtain ⟨s₁, base₁, count, body, pos, rest, hreach, hround, -⟩ := hnest.reaches
      have hmem := tooLong_subset hreach hround hd
      rw [hblock, ← hproblems] at hmem
      obtain ⟨x, -, -, rfl⟩ := l.mem_tooLong.1 hd
      exact ⟨rfl, hmem⟩
    · have hmem := hnest.overrun_mem hown hd
      rw [hblock, ← hproblems] at hmem
      obtain ⟨-, l, -, -, -, rfl⟩ := hd
      exact ⟨rfl, hmem⟩
  · intro d hd hp
    obtain ⟨ls, s, base, ch, hnest, hown, hover⟩ := htraced.loops d (by rwa [← hproblems]) hp
    exact ⟨ls, s, base, ch, hnest, .inr ⟨hown, hover⟩⟩
  · intro d hd x hp
    exact htraced.counts d (by rwa [← hproblems]) x hp

/-- A call that is written to the first output. -/
def drawn (call : String) : Chain :=
  { calls := [{ name := call }], out := some (.surface { kind := .output, index := 0 } {}) }

/-- The call in two loops of a hundred rounds. -/
def looped (call : String) : Program where
  search := ["darkroom"]
  statements :=
    [ .repeated (some (.number 100 "100" {}))
      [.repeated (some (.number 100 "100" {})) [.run (drawn call) {}] {}] {} ]

/-- Where the call is lowered. -/
def inBoth : Surroundings :=
  { checker := { registry := darkroom, suggest := ({} : Options).suggest }, loops := 2 }

/-- Both loops. -/
def bothRounds : List Round :=
  [{ pos := {}, written := some 100 }, { pos := {}, written := some 100 }]

open Surroundings in
/-- The step of the call runs up to the limit, and that is reported. -/
theorem looped_ink_reported :
    ∃ p, (looped "ink").plan darkroom {} = .ok p ∧ (inBoth.chain 0 (drawn "ink")).steps ≠ [] ∧
      From 0 p.steps 0 ((inBoth.chain 0 (drawn "ink")).steps.map fun st =>
        { st with repetition := ⟨1024, none⟩ }) ∧
      ∃ d ∈ p.diagnostics, d.problem.code = "S002" := by
  have hok : ((looped "ink").plan darkroom {}).toOption.isSome = true := by decide +kernel
  have hsteps : (inBoth.chain 0 (drawn "ink")).steps ≠ [] :=
    List.ne_nil_of_length_pos (by decide +kernel)
  have hcount : (min (Round.product bothRounds) maxRepeat : Nat) = 1024 := by decide +kernel
  cases h : (looped "ink").plan darkroom {} with
  | error e => simp [h, Except.toOption] at hok
  | ok p =>
      have hnest : Nest { checker := { registry := darkroom, suggest := ({} : Options).suggest } } 0
          (looped "ink").statements bothRounds inBoth 0 (drawn "ink") :=
        .loop rfl (by decide +kernel) (by decide +kernel)
          (.loop rfl (by decide +kernel) (by decide +kernel) .run)
      obtain ⟨hfrom, -, hmem, hreported⟩ := (loops_multiply h).1 _ _ _ _ hnest
      obtain ⟨d, hd⟩ := hreported.2 (.inr ⟨hsteps, by decide +kernel⟩)
      rw [hcount] at hfrom
      exact ⟨p, rfl, hsteps, hfrom, d, (hmem d hd).2, (hmem d hd).1⟩

open Surroundings in
/-- A call of no operation has no step that could run past the limit, and nothing is reported of the
two loops. -/
theorem looped_unknown_unreported :
    ∃ p, (looped "nosuch").plan darkroom {} = .ok p ∧
      Nest { checker := { registry := darkroom, suggest := ({} : Options).suggest } } 0
        (looped "nosuch").statements
        bothRounds inBoth 0 (drawn "nosuch") ∧
      (∀ l ∈ bothRounds, l.factor = none) ∧ maxRepeat < Round.product bothRounds ∧
      ∀ d ∈ p.diagnostics, d.problem.code ≠ "S002" := by
  have hok : ((looped "nosuch").plan darkroom {}).toOption.map
      (fun p => p.diagnostics.map (·.problem.code)) =
      some ["S001"] := by decide +kernel
  cases h : (looped "nosuch").plan darkroom {} with
  | error e => simp [h, Except.toOption] at hok
  | ok p =>
      simp only [h, Except.toOption, Option.map_some, Option.some.injEq] at hok
      refine ⟨p, rfl,
        .loop rfl (by decide +kernel) (by decide +kernel)
          (.loop rfl (by decide +kernel) (by decide +kernel) .run),
        by simp [bothRounds], by decide +kernel, fun d hd hcode => ?_⟩
      have hmem := List.mem_map_of_mem (f := fun d : Diagnostic => d.problem.code) hd
      rw [hok, hcode] at hmem
      simp at hmem

end EffectChain
