import EffectChain.Number.Format
import EffectChain.Number.Read
import EffectChain.Proofs.Number.Interval
import Mathlib.Algebra.Order.AbsoluteValue.Basic
import Mathlib.Data.List.TakeWhile
import Mathlib.Tactic.Ring

/-!
# EffectChain.Proofs.Number.Shortest

The text of a number tells the number: `Number.plain` writes no two doubles alike
(`plain_injective`).

The digits that `shortest` finds stand for a rational that rounds to the double
(`covers_shortest`), and their value is read off the text (`decimalValue_positional`).
So doubles with the same text have intervals with a point in common.
-/

namespace EffectChain.Number

/-! ## grids -/

theorem scaleTen_pos (num : Nat) {den : Nat} (k : Int) (h : 0 < den) :
    0 < (scaleTen num den k).2 := by
  cases k with
  | ofNat k => exact h
  | negSucc k => exact Nat.mul_pos h (Nat.pow_pos (by decide))

/-- Scaling multiplies by the power of ten. -/
theorem scaleTen_ratio (num den : Nat) (k : Int) :
    ((scaleTen num den k).1 : ℚ) / (scaleTen num den k).2 = num / den * 10 ^ k := by
  cases k with
  | ofNat k =>
    simp only [scaleTen, Nat.pow_eq, Nat.cast_mul, Nat.cast_pow, Nat.cast_ofNat,
      Int.ofNat_eq_natCast, zpow_natCast]
    ring
  | negSucc k =>
    simp only [scaleTen, Nat.pow_eq, Nat.cast_mul, Nat.cast_pow, Nat.cast_ofNat, zpow_negSucc]
    rw [div_mul_eq_div_div, div_eq_mul_inv (num / den : ℚ)]

theorem scale_pos (num : Nat) {den : Nat} (e : Int) (h : 0 < den) : 0 < (scale num den e).2 := by
  cases e with
  | ofNat k => exact Nat.mul_pos h (Nat.pow_pos (by decide))
  | negSucc k => exact h

/-- Scaling divides by the power of two. -/
theorem scale_ratio (num den : Nat) (e : Int) :
    ((scale num den e).1 : ℚ) / (scale num den e).2 = num / den / 2 ^ e := by
  cases e with
  | ofNat k =>
    simp only [scale, Nat.pow_eq, Nat.cast_mul, Nat.cast_pow, Nat.cast_ofNat, Int.ofNat_eq_natCast,
      zpow_natCast]
    rw [div_div]
  | negSucc k =>
    simp only [scale, Nat.pow_eq, Nat.cast_mul, Nat.cast_pow, Nat.cast_ofNat, zpow_negSucc]
    rw [div_inv_eq_mul]
    ring

/-- The test against a power of ten decides just that. -/
theorem belowPowerOfTen_iff {num den : Nat} (hd : 0 < den) (k : Int) :
    belowPowerOfTen num den k = true ↔ (num / den : ℚ) < 10 ^ k := by
  have hdq : (0 : ℚ) < den := by exact_mod_cast hd
  cases k with
  | ofNat k =>
    rw [belowPowerOfTen, decide_eq_true_iff, div_lt_iff₀ hdq, Int.ofNat_eq_natCast, zpow_natCast,
      mul_comm, Nat.pow_eq]
    exact_mod_cast Iff.rfl
  | negSucc k =>
    have hpow : (0 : ℚ) < 10 ^ (k + 1) := by positivity
    rw [belowPowerOfTen, decide_eq_true_iff, div_lt_iff₀ hdq, zpow_negSucc, inv_mul_eq_div,
      lt_div_iff₀ hpow, Nat.pow_eq]
    exact_mod_cast Iff.rfl

/-! ## rounding -/

/-- A rounded quotient is the quotient or one more. -/
theorem roundQuotient_cases (n d : Nat) :
    roundQuotient n d = n / d ∨ roundQuotient n d = n / d + 1 := by
  unfold roundQuotient
  dsimp only
  split
  · exact .inr rfl
  · exact .inl rfl

/-- The rounded quotient is not farther than a half. -/
theorem roundQuotient_close {n d : Nat} (hd : 0 < d) :
    |(roundQuotient n d : ℚ) - n / d| ≤ 1 / 2 := by
  have hdq : (0 : ℚ) < d := by exact_mod_cast hd
  have hdiv : (n : ℚ) = d * (n / d : Nat) + (n % d : Nat) := by
    exact_mod_cast (Nat.div_add_mod n d).symm
  have hquot : (n / d : ℚ) = (n / d : Nat) + (n % d : Nat) / d := by
    conv_lhs => rw [hdiv, add_div, mul_div_cancel_left₀ _ hdq.ne']
  have hmod := Nat.mod_lt n hd
  rw [hquot, abs_le]
  unfold roundQuotient
  dsimp only
  split
  case isTrue h =>
    rw [Bool.or_eq_true, Bool.and_eq_true, decide_eq_true_iff, decide_eq_true_iff] at h
    have hhalf : d ≤ 2 * (n % d) := by omega
    have hge : (1 / 2 : ℚ) ≤ (n % d : Nat) / d := by
      rw [le_div_iff₀ hdq]
      have : ((d : Nat) : ℚ) ≤ (2 * (n % d) : Nat) := by exact_mod_cast hhalf
      push_cast at this ⊢
      linarith
    have hle : ((n % d : Nat) / d : ℚ) ≤ 1 := by
      rw [div_le_one hdq]
      exact_mod_cast hmod.le
    push_cast at hge hle ⊢
    constructor <;> linarith
  case isFalse h =>
    rw [Bool.or_eq_true, decide_eq_true_iff, not_or] at h
    have hle : ((n % d : Nat) / d : ℚ) ≤ 1 / 2 := by
      rw [div_le_iff₀ hdq]
      have : ((2 * (n % d) : Nat) : ℚ) ≤ (d : Nat) := by exact_mod_cast (by omega : 2 * (n % d) ≤ d)
      push_cast at this ⊢
      linarith
    have hge : (0 : ℚ) ≤ (n % d : Nat) / d := by positivity
    constructor <;> linarith

/-! ## the decimal point -/

/-- The exact value of a size. -/
def Parts.value (p : Parts) : ℚ := p.mantissa * 2 ^ p.exponent

theorem Parts.quotient_pos (p : Parts) : 0 < p.quotient.2 := scale_pos _ _ Nat.one_pos

theorem Parts.quotient_ratio (p : Parts) : (p.quotient.1 : ℚ) / p.quotient.2 = p.value := by
  rw [Parts.quotient, scale_ratio, Parts.value, Nat.cast_one, div_one, zpow_neg, div_inv_eq_mul]

/-- The place that the binary logarithm gives is not too far to the left. -/
theorem guess_le {k : Int} (hlow : -1100 < k) (hhigh : k < 1100) :
    (10 : ℚ) ^ (k * 30103 / 100000 - 1) ≤ 2 ^ k := by
  have hup : ∀ n < 1100, 10 ^ (n * 30103 / 100000) ≤ 10 * 2 ^ n := by decide +kernel
  have hdown : ∀ n < 1100, 2 ^ n ≤ 10 ^ ((n * 30103 + 99999) / 100000 + 1) := by decide +kernel
  cases k with
  | ofNat n =>
    have hcast : (10 : ℚ) ^ (n * 30103 / 100000) ≤ 10 * 2 ^ n := by
      exact_mod_cast hup n (by simpa using hhigh)
    have hexp : Int.ofNat n * 30103 / 100000 = ((n * 30103 / 100000 : Nat) : Int) := by
      simp
    rw [hexp, zpow_sub_one₀ (by norm_num), Int.ofNat_eq_natCast, zpow_natCast, zpow_natCast]
    linarith
  | negSucc n =>
    have hcast : (2 : ℚ) ^ (n + 1) ≤ 10 ^ (((n + 1) * 30103 + 99999) / 100000 + 1) := by
      exact_mod_cast hdown (n + 1) (by omega)
    have hexp : Int.negSucc n * 30103 / 100000 - 1
        = -(((((n + 1) * 30103 + 99999) / 100000 + 1 : Nat)) : Int) := by
      omega
    rw [hexp, zpow_neg, zpow_natCast, zpow_negSucc]
    exact inv_anti₀ (by positivity) hcast

/-- The logarithms give a quotient up to a factor of two. -/
theorem log2_lt {num den : Nat} (hn : 0 < num) (hd : 0 < den) :
    (2 : ℚ) ^ ((num.log2 : Int) - den.log2 - 1) < num / den := by
  have hdq : (0 : ℚ) < den := by exact_mod_cast hd
  have hnum : (2 : ℚ) ^ (num.log2 : Int) ≤ num := by exact_mod_cast Nat.log2_self_le hn.ne'
  have hden : (den : ℚ) < 2 ^ ((den.log2 : Int) + 1) := by exact_mod_cast Nat.lt_log2_self
  rw [lt_div_iff₀ hdq]
  calc (2 : ℚ) ^ ((num.log2 : Int) - den.log2 - 1) * den
      < 2 ^ ((num.log2 : Int) - den.log2 - 1) * 2 ^ ((den.log2 : Int) + 1) := by gcongr
    _ = 2 ^ (num.log2 : Int) := by
      rw [← zpow_add₀ (by norm_num)]
      congr 1
      ring
    _ ≤ num := hnum

/-- The first digit of a quotient is not before the decimal point found. -/
theorem decimalPoint_le {num den : Nat} (hn : 0 < num) (hd : 0 < den)
    (hlow : -1099 < (num.log2 : Int) - den.log2) (hhigh : (num.log2 : Int) - den.log2 < 1100) :
    (10 : ℚ) ^ (decimalPoint num den - 1) ≤ num / den := by
  have hguess := guess_le (k := (num.log2 : Int) - den.log2 - 1) (by omega) (by omega)
  have hlog := log2_lt hn hd
  unfold decimalPoint
  dsimp only
  generalize ((num.log2 : Int) - den.log2 - 1) * 30103 / 100000 = guess at hguess ⊢
  -- each place was tried, and refused, before the next
  split
  · exact hguess.trans hlog.le
  · rename_i h0
    rw [belowPowerOfTen_iff hd, not_lt] at h0
    split
    · simpa using h0
    · rename_i h1
      rw [belowPowerOfTen_iff hd, not_lt] at h1
      split
      · rw [show guess + 2 - 1 = guess + 1 by ring]
        exact h1
      · rename_i h2
        rw [belowPowerOfTen_iff hd, not_lt] at h2
        rw [show guess + 3 - 1 = guess + 2 by ring]
        exact h2

/-- Doubling adds one to the logarithm. -/
theorem log2_mul_two_pow {m : Nat} (hm : 0 < m) (k : Nat) : (m * 2 ^ k).log2 = m.log2 + k := by
  rw [Nat.log2_eq_iff (Nat.mul_pos hm (Nat.two_pow_pos k)).ne', Nat.add_right_comm, Nat.pow_add,
    Nat.pow_add]
  exact ⟨Nat.mul_le_mul_right _ (Nat.log2_self_le hm.ne'),
    Nat.mul_lt_mul_of_pos_right Nat.lt_log2_self (Nat.two_pow_pos k)⟩

/-- The logarithms of a float's quotient differ by less than eleven hundred. -/
theorem Parts.log2_quotient {p : Parts} (hp : p.Normal) (hm : 0 < p.mantissa) :
    -1099 < (p.quotient.1.log2 : Int) - p.quotient.2.log2 ∧
      (p.quotient.1.log2 : Int) - p.quotient.2.log2 < 1100 := by
  have hlog : p.mantissa.log2 < 53 := (Nat.log2_lt hm.ne').2 hp.mantissa_lt
  have hlow := hp.exponent_ge
  have hhigh := hp.exponent_le
  rw [minExponent_eq] at hlow
  unfold Parts.quotient scale
  split
  case h_1 k hk =>
    have : (1 * Nat.pow 2 k).log2 = k := by
      rw [Nat.one_mul, Nat.pow_eq, Nat.log2_two_pow]
    dsimp only
    simp only [Int.ofNat_eq_natCast] at hk
    omega
  case h_2 k hk =>
    have : (p.mantissa * Nat.pow 2 (k + 1)).log2 = p.mantissa.log2 + (k + 1) := by
      rw [Nat.pow_eq, log2_mul_two_pow hm]
    have hone : Nat.log2 1 = 0 := by decide
    dsimp only
    omega

/-! ## the shortest digits -/

/-- A grid point that the search accepts rounds to the size. -/
theorem covers_of_contains {p : Parts} (hm : 0 < p.mantissa) {g : Nat} {k : Int}
    (h : (Interval.of p).contains g k = true) : p.Covers (g * 10 ^ k) := by
  have hten := scaleTen_pos g k Nat.one_pos
  have hpos := scale_pos (scaleTen g 1 k).1 (Interval.of p).unit hten
  have hratio : ((scale (scaleTen g 1 k).1 (scaleTen g 1 k).2 (Interval.of p).unit).1 : ℚ) /
      (scale (scaleTen g 1 k).1 (scaleTen g 1 k).2 (Interval.of p).unit).2
        = 4 * (g * 10 ^ k / 2 ^ p.exponent) := by
    rw [scale_ratio, scaleTen_ratio, Nat.cast_one, div_one, show (Interval.of p).unit = p.exponent -
      2 from rfl,
      zpow_sub₀ (by norm_num)]
    field_simp
    norm_num
  have hhigh : ((Interval.of p).high : ℚ) = 4 * (p.mantissa + 1 / 2) := by
    change ((4 * p.mantissa + 2 : Nat) : ℚ) = _
    push_cast
    ring
  have hlow : ((Interval.of p).low : ℚ) = 4 * (p.mantissa - p.reach) := by
    have hnat : (Interval.of p).low = 4 * p.mantissa -
        (if p.mantissa = 2 ^ 52 ∧ p.exponent ≠ minExponent then 1 else 2) := by
      simp [Interval.of]
    rw [hnat, Parts.reach]
    split <;> rw [Nat.cast_sub (by omega)] <;> push_cast <;> ring
  have hclosed : (Interval.of p).closed = decide (p.mantissa % 2 = 0) := rfl
  unfold Interval.contains at h
  dsimp only at h
  generalize scale (scaleTen g 1 k).1 (scaleTen g 1 k).2 (Interval.of p).unit = nd at h hpos hratio
  obtain ⟨n, d⟩ := nd
  dsimp only at h hpos hratio
  have hdq : (0 : ℚ) < d := by exact_mod_cast hpos
  rw [hclosed] at h
  by_cases heven : p.mantissa % 2 = 0
  · rw [if_pos (decide_eq_true heven), Bool.and_eq_true, decide_eq_true_iff, decide_eq_true_iff]
      at h
    have h1 : ((Interval.of p).low : ℚ) ≤ n / d := by
      rw [le_div_iff₀ hdq]
      exact_mod_cast h.1
    have h2 : (n / d : ℚ) ≤ (Interval.of p).high := by
      rw [div_le_iff₀ hdq]
      exact_mod_cast h.2
    rw [hratio] at h1 h2
    exact ⟨by linarith, by linarith, .inl heven⟩
  · rw [if_neg (by simpa using heven), Bool.and_eq_true, decide_eq_true_iff, decide_eq_true_iff]
      at h
    have h1 : ((Interval.of p).low : ℚ) < n / d := by
      rw [lt_div_iff₀ hdq]
      exact_mod_cast h.1
    have h2 : (n / d : ℚ) < (Interval.of p).high := by
      rw [div_lt_iff₀ hdq]
      exact_mod_cast h.2
    rw [hratio] at h1 h2
    exact ⟨by linarith, by linarith, .inr ⟨by linarith, by linarith⟩⟩

/-- Eighteen digits are enough whatever they are rounded to. -/
theorem covers_of_rounded {p : Parts} (hp : p.Normal) {num den count : Nat} {point : Int}
    (hd : 0 < den) (hvalue : (num / den : ℚ) = p.value) (hpoint : (10 : ℚ) ^ (point - 1) ≤ p.value)
    (hcount : 18 ≤ count) :
    p.Covers (roundQuotient (scaleTen num den (count - point)).1
      (scaleTen num den (count - point)).2 *
      10 ^ (point - count)) := by
  have hclose := roundQuotient_close (n := (scaleTen num den (count - point)).1)
    (scaleTen_pos num (count - point) hd)
  rw [scaleTen_ratio, hvalue] at hclose
  generalize roundQuotient (scaleTen num den (count - point)).1
    (scaleTen num den (count - point)).2 = g at hclose ⊢
  have hpow : (0 : ℚ) < 2 ^ p.exponent := by positivity
  have hgrid : (0 : ℚ) < 10 ^ (point - count) := by positivity
  have hinv : (10 : ℚ) ^ ((count : Int) - point) * 10 ^ (point - count) = 1 := by
    rw [← zpow_add₀ (by norm_num)]
    norm_num
  -- the distance to the value is at most half a step of the grid
  have hdist : |(g : ℚ) * 10 ^ (point - count) - p.value| ≤ 1 / 2 * 10 ^ (point - count) := by
    have hfactor : (g : ℚ) * 10 ^ (point - count) - p.value
        = (g - p.value * 10 ^ ((count : Int) - point)) * 10 ^ (point - count) := by
      rw [sub_mul, mul_assoc, hinv, mul_one]
    rw [hfactor, abs_mul, abs_of_pos hgrid]
    gcongr
  have hstep : (10 : ℚ) ^ (point - count) ≤ p.value / 10 ^ 17 := by
    rw [le_div_iff₀ (by positivity)]
    refine le_trans ?_ hpoint
    rw [← zpow_natCast, ← zpow_add₀ (by norm_num)]
    exact zpow_le_zpow_right₀ (by norm_num) (by push_cast; omega)
  have hman : (p.mantissa : ℚ) / 10 ^ 17 < 1 / 2 := by
    have hlt : (p.mantissa : ℚ) < 2 ^ 53 := by exact_mod_cast hp.mantissa_lt
    rw [div_lt_iff₀ (by norm_num)]
    linarith
  have hunits : |(g : ℚ) * 10 ^ (point - count) / 2 ^ p.exponent - p.mantissa| < 1 / 4 := by
    have hmul : (g : ℚ) * 10 ^ (point - count) / 2 ^ p.exponent - p.mantissa
        = (g * 10 ^ (point - count) - p.value) / 2 ^ p.exponent := by
      rw [Parts.value, sub_div, mul_div_cancel_right₀ _ hpow.ne']
    rw [hmul, abs_div, abs_of_pos hpow, div_lt_iff₀ hpow]
    rw [Parts.value] at hstep hdist
    calc |(g : ℚ) * 10 ^ (point - count) - p.mantissa * 2 ^ p.exponent|
        ≤ 1 / 2 * (p.mantissa * 2 ^ p.exponent / 10 ^ 17) := by linarith
      _ = 1 / 2 * (p.mantissa / 10 ^ 17) * 2 ^ p.exponent := by ring
      _ < 1 / 4 * 2 ^ p.exponent := by
        gcongr
        linarith
  rw [abs_lt] at hunits
  exact .of_close (by linarith [hunits.1]) (by linarith [hunits.2])

/-- What the search ends with rounds to the size. -/
theorem covers_shortestFrom {p : Parts} (hp : p.Normal) (hm : 0 < p.mantissa) {num den : Nat}
    {point : Int} (hd : 0 < den) (hvalue : (num / den : ℚ) = p.value)
    (hpoint : (10 : ℚ) ^ (point - 1) ≤ p.value) (fuel count : Nat) (henough : 18 ≤ count + fuel) :
    p.Covers ((shortestFrom (Interval.of p) num den point fuel count).1 *
      10 ^ (point - (shortestFrom (Interval.of p) num den point fuel count).2)) := by
  induction fuel generalizing count with
  | zero => exact covers_of_rounded hp hd hvalue hpoint henough
  | succ fuel ih =>
    rw [shortestFrom]
    dsimp only
    split
    case isTrue hboth =>
      rw [Bool.and_eq_true] at hboth
      obtain hround | hround := roundQuotient_cases (scaleTen num den (count - point)).1
        (scaleTen num den (count - point)).2 <;> dsimp only <;> rw [hround]
      · exact covers_of_contains hm hboth.1
      · exact covers_of_contains hm hboth.2
    case isFalse =>
      split
      case isTrue hbelow => exact covers_of_contains hm hbelow
      case isFalse =>
        split
        case isTrue habove => exact covers_of_contains hm habove
        case isFalse => exact ih (count + 1) (by omega)

/-! ## the value of digits -/

/-- The value `0.d₁d₂… · 10^point`. -/
def Digits.value (d : Digits) : ℚ := digitsValue 10 d.digits * 10 ^ (d.point - d.digits.length)

@[simp] theorem digitsValue_concat (ds : List Nat) (d : Nat) :
    digitsValue 10 (ds ++ [d]) = digitsValue 10 ds * 10 + d := by
  simp [digitsValue]

/-- Zeros behind the digits multiply their value by powers of ten. -/
theorem digitsValue_zeros (ds : List Nat) (n : Nat) :
    digitsValue 10 (ds ++ List.replicate n 0) = digitsValue 10 ds * 10 ^ n := by
  induction n with
  | zero => simp
  | succ n ih => rw [List.replicate_succ', ← List.append_assoc, digitsValue_concat, ih]; ring

/-- Zeros before the digits do not change their value. -/
theorem digitsValue_zeros_left (ds : List Nat) (n : Nat) :
    digitsValue 10 (List.replicate n 0 ++ ds) = digitsValue 10 ds := by
  induction n with
  | zero => rfl
  | succ n ih =>
    rw [List.replicate_succ, List.cons_append]
    simpa [digitsValue] using ih

theorem trimZeros_concat_zero (ds : List Nat) : trimZeros (ds ++ [0]) = trimZeros ds := by
  simp [trimZeros]

theorem trimZeros_concat {d : Nat} (h : d ≠ 0) (ds : List Nat) :
    trimZeros (ds ++ [d]) = ds ++ [d] := by
  simp [trimZeros, h]

/-- The zeros that are dropped. -/
theorem trimZeros_append (ds : List Nat) : ∃ n, ds = trimZeros ds ++ List.replicate n 0 := by
  induction ds using List.reverseRecOn with
  | nil => exact ⟨0, rfl⟩
  | append_singleton ds d ih =>
    by_cases h : d = 0
    · obtain ⟨n, hn⟩ := ih
      refine ⟨n + 1, ?_⟩
      rw [h, trimZeros_concat_zero, List.replicate_succ', ← List.append_assoc, ← hn]
    · exact ⟨0, by rw [trimZeros_concat h]; simp⟩

/-- The decimal digits of a number have its value. -/
theorem digitsValue_decimalDigits (n : Nat) : digitsValue 10 (decimalDigits n) = n := by
  have hfold : ∀ (cs : List Char) (start : Nat),
      (cs.map fun c => c.toNat - 48).foldl (fun n d => n * 10 + d) start =
          Nat.ofDigitChars 10 cs start := by
    intro cs
    induction cs with
    | nil => intro start; rfl
    | cons c cs ih =>
      intro start
      rw [List.map_cons, List.foldl_cons, ih, Nat.ofDigitChars_cons, Nat.mul_comm]
      rfl
  rw [digitsValue, decimalDigits, hfold, Nat.ofDigitChars_toDigits (by decide) (by decide)]

/-- Every decimal digit is below ten. -/
theorem decimalDigits_lt {n d : Nat} (h : d ∈ decimalDigits n) : d < 10 := by
  obtain ⟨c, hc, rfl⟩ := List.mem_map.1 h
  have hdigit := Nat.isDigit_of_mem_toDigits (by decide) (by decide) hc
  rw [Char.isDigit, Bool.and_eq_true, decide_eq_true_iff, decide_eq_true_iff] at hdigit
  have h9 : c.toNat ≤ 57 := hdigit.2
  omega

/-- The digits read off a grid are below ten. -/
theorem Digits.lt_of_mem_ofGrid {g count d : Nat} {point : Int}
    (h : d ∈ (Digits.ofGrid g count point).digits) : d < 10 := by
  obtain ⟨n, hn⟩ := trimZeros_append (decimalDigits g)
  apply decimalDigits_lt (n := g)
  rw [hn]
  exact List.mem_append_left _ h

/-- The digits read off a grid have the value of their grid point. -/
theorem Digits.value_ofGrid (g count : Nat) (point : Int) :
    (Digits.ofGrid g count point).value = g * 10 ^ (point - count) := by
  obtain ⟨n, hn⟩ := trimZeros_append (decimalDigits g)
  have hlen : (decimalDigits g).length = (trimZeros (decimalDigits g)).length + n := by
    conv_lhs => rw [hn]
    simp
  have hval : (g : ℚ) = digitsValue 10 (trimZeros (decimalDigits g)) * 10 ^ n := by
    have := digitsValue_zeros (trimZeros (decimalDigits g)) n
    rw [← hn, digitsValue_decimalDigits] at this
    exact_mod_cast this
  rw [Digits.value, Digits.ofGrid]
  dsimp only
  rw [hval, mul_assoc, ← zpow_natCast, ← zpow_add₀ (by norm_num)]
  congr 2
  push_cast [hlen]
  ring

/-- The shortest digits stand for a rational that rounds to the size. -/
theorem covers_shortest {p : Parts} (hp : p.Normal) : p.Covers (shortest p).value := by
  unfold shortest
  split
  case isTrue hzero =>
    have hvalue : Digits.value ⟨[], 0⟩ = 0 := by simp [Digits.value, digitsValue]
    obtain ⟨hreach, -⟩ := p.reach_bounds
    rw [hvalue]
    refine ⟨?_, ?_, .inl (by rw [hzero])⟩ <;> rw [hzero, zero_div] <;> push_cast <;> linarith
  case isFalse hzero =>
    have hm : 0 < p.mantissa := Nat.pos_of_ne_zero hzero
    have hnum : 0 < p.quotient.1 := by
      unfold Parts.quotient scale
      split
      · exact hm
      · exact Nat.mul_pos hm (Nat.pow_pos (by decide))
    obtain ⟨hlow, hhigh⟩ := p.log2_quotient hp hm
    have hpoint := decimalPoint_le hnum p.quotient_pos hlow hhigh
    rw [p.quotient_ratio] at hpoint
    dsimp only
    rw [Digits.value_ofGrid]
    exact covers_shortestFrom hp hm p.quotient_pos p.quotient_ratio hpoint 17 1 (by decide)

/-- The shortest digits are below ten. -/
theorem shortest_digits_lt (p : Parts) : ∀ d ∈ (shortest p).digits, d < 10 := by
  unfold shortest
  split
  · simp
  · exact fun d hd => Digits.lt_of_mem_ofGrid hd

/-! ## the text of digits -/

theorem isDigit_digitChar {d : Nat} (h : d < 10) : (digitChar d).isDigit = true := by
  revert d
  decide

theorem toNat_digitChar {d : Nat} (h : d < 10) : (digitChar d).toNat - '0'.toNat = d := by
  revert d
  decide

theorem ne_point_of_isDigit {c : Char} (h : c.isDigit = true) : c ≠ '.' := by
  rintro rfl
  exact absurd h (by decide)

theorem isDigit_of_mem_digitChars {ds : List Nat} (h : ∀ d ∈ ds, d < 10) {c : Char}
    (hc : c ∈ ds.map digitChar) : c.isDigit = true := by
  obtain ⟨d, hd, rfl⟩ := List.mem_map.1 hc
  exact isDigit_digitChar (h d hd)

/-- Printed digits are read back with their value. -/
theorem ofDigitChars_digitChars {ds : List Nat} (h : ∀ d ∈ ds, d < 10) :
    Nat.ofDigitChars 10 (ds.map digitChar) 0 = digitsValue 10 ds := by
  induction ds using List.reverseRecOn with
  | nil => rfl
  | append_singleton ds d ih =>
    have hd : d < 10 := h d (by simp)
    rw [List.map_append, Nat.ofDigitChars_append, ih fun e he => h e (by simp [he]),
      digitsValue_concat, Nat.mul_comm]
    simp only [List.map_cons, List.map_nil, Nat.ofDigitChars_cons, Nat.ofDigitChars_nil,
      toNat_digitChar hd]

/-- The value of digits around a decimal point. -/
def decimalValue (cs : List Char) : ℚ :=
  Nat.ofDigitChars 10 (cs.filter (· ≠ '.')) 0 / 10 ^ ((cs.dropWhile (· ≠ '.')).drop 1).length

/-- Digits without a point are read with their value. -/
theorem decimalValue_whole {ds : List Nat} (h : ∀ d ∈ ds, d < 10) :
    decimalValue (ds.map digitChar) = digitsValue 10 ds := by
  have hne : ∀ c ∈ ds.map digitChar, c ≠ '.' := fun c hc =>
    ne_point_of_isDigit (isDigit_of_mem_digitChars h hc)
  have hfilter : (ds.map digitChar).filter (· ≠ '.') = ds.map digitChar :=
    List.filter_eq_self.2 fun c hc => decide_eq_true (hne c hc)
  have hdrop : (ds.map digitChar).dropWhile (· ≠ '.') = [] :=
    List.dropWhile_eq_nil_iff.2 fun c hc => decide_eq_true (hne c hc)
  rw [decimalValue, hfilter, hdrop, ofDigitChars_digitChars h]
  simp

/-- Digits around a point are read as a fraction. -/
theorem decimalValue_point {as bs : List Nat} (ha : ∀ d ∈ as, d < 10) (hb : ∀ d ∈ bs, d < 10) :
    decimalValue (as.map digitChar ++ '.' :: bs.map digitChar)
      = digitsValue 10 (as ++ bs) / 10 ^ bs.length := by
  have hne : ∀ ds : List Nat, (∀ d ∈ ds, d < 10) → ∀ c ∈ ds.map digitChar, c ≠ '.' :=
    fun ds h c hc => ne_point_of_isDigit (isDigit_of_mem_digitChars h hc)
  have hfilter : (as.map digitChar ++ '.' :: bs.map digitChar).filter (· ≠ '.')
      = (as ++ bs).map digitChar := by
    rw [List.filter_append, List.filter_cons_of_neg (by simp),
      List.filter_eq_self.2 fun c hc => decide_eq_true (hne as ha c hc),
      List.filter_eq_self.2 fun c hc => decide_eq_true (hne bs hb c hc), List.map_append]
  have hdrop : (as.map digitChar ++ '.' :: bs.map digitChar).dropWhile (· ≠ '.')
      = '.' :: bs.map digitChar := by
    rw [List.dropWhile_append_of_pos fun c hc => decide_eq_true (hne as ha c hc)]
    simp
  have hboth : ∀ d ∈ as ++ bs, d < 10 := by
    intro d hd
    rcases List.mem_append.1 hd with h | h
    · exact ha d h
    · exact hb d h
  rw [decimalValue, hfilter, hdrop, ofDigitChars_digitChars hboth]
  simp

/-- Digits around a decimal point: the whole part and the fraction, if there is one. -/
theorem positional_shape (d : Digits) (h : ∀ x ∈ d.digits, x < 10) :
    (∃ as, (positional d).toList = as.map digitChar ∧ as ≠ [] ∧ (∀ x ∈ as, x < 10) ∧
        (digitsValue 10 as : ℚ) = d.value) ∨
      ∃ as bs, (positional d).toList = as.map digitChar ++ '.' :: bs.map digitChar ∧ as ≠ [] ∧
      bs ≠ [] ∧
        (∀ x ∈ as, x < 10) ∧ (∀ x ∈ bs, x < 10) ∧
        (digitsValue 10 (as ++ bs) : ℚ) / 10 ^ bs.length = d.value := by
  obtain ⟨ds, point⟩ := d
  have hzeros : ∀ n, ∀ x ∈ List.replicate n 0, x < 10 := by
    intro n x hx
    rw [(List.mem_replicate.1 hx).2]
    decide
  unfold positional
  dsimp only at h ⊢
  split
  case isTrue hnil =>
    rw [List.isEmpty_iff] at hnil
    refine .inl ⟨[0], by decide, by simp, by simp, ?_⟩
    simp [Digits.value, digitsValue, hnil]
  case isFalse hnil =>
    rw [List.isEmpty_iff] at hnil
    have hlen : 0 < ds.length := List.length_pos_iff.2 hnil
    cases point with
    | ofNat p =>
      dsimp only
      split
      case isTrue hp =>
        refine .inr ⟨[0], ds, by simp [digitText, digitChar], by simp, hnil, by simp, h, ?_⟩
        have hleft := digitsValue_zeros_left ds 1
        rw [List.replicate_one] at hleft
        rw [hleft, Digits.value, hp]
        dsimp only
        rw [Int.ofNat_eq_natCast, Nat.cast_zero, zero_sub, zpow_neg, zpow_natCast, div_eq_mul_inv]
      case isFalse hp =>
        have hwhole : ∀ x ∈ ds.take p ++ List.replicate (p - (ds.take p).length) 0, x < 10 := by
          intro x hx
          rcases List.mem_append.1 hx with hx | hx
          · exact h x (List.mem_of_mem_take hx)
          · exact hzeros _ x hx
        have hne : ds.take p ++ List.replicate (p - (ds.take p).length) 0 ≠ [] := by
          simp [hnil, hp]
        split
        case isTrue hrest =>
          rw [List.isEmpty_iff, List.drop_eq_nil_iff] at hrest
          refine .inl ⟨_, by simp [digitText], hne, hwhole, ?_⟩
          rw [List.take_of_length_le hrest, digitsValue_zeros, Digits.value]
          dsimp only
          rw [Int.ofNat_eq_natCast, ← Nat.cast_sub hrest, zpow_natCast]
          push_cast
          rfl
        case isFalse hrest =>
          rw [List.isEmpty_iff, List.drop_eq_nil_iff, not_le] at hrest
          refine .inr ⟨_, ds.drop p, by simp [digitText], hne, by simpa using hrest, hwhole,
            fun x hx => h x (List.mem_of_mem_drop hx), ?_⟩
          have hfull : p - (ds.take p).length = 0 := by
            rw [List.length_take]
            omega
          rw [hfull, List.replicate_zero, List.append_nil, List.take_append_drop, Digits.value,
            List.length_drop]
          dsimp only
          rw [Int.ofNat_eq_natCast,
            show (p : Int) - ds.length = -((ds.length - p : Nat) : Int) by omega, zpow_neg,
              zpow_natCast, div_eq_mul_inv]
    | negSucc p =>
      refine .inr ⟨[0], List.replicate (p + 1) 0 ++ ds, by simp [digitText, digitChar], by simp,
        by simp, by simp, ?_, ?_⟩
      · intro x hx
        rcases List.mem_append.1 hx with hx | hx
        · exact hzeros _ x hx
        · exact h x hx
      · have hleft := digitsValue_zeros_left ds (p + 2)
        rw [List.replicate_succ] at hleft
        rw [← List.append_assoc, List.singleton_append, hleft, Digits.value, List.length_append,
          List.length_replicate]
        dsimp only
        rw [show Int.negSucc p - ds.length = -((p + 1 + ds.length : Nat) : Int) by omega, zpow_neg,
          zpow_natCast, div_eq_mul_inv]

/-- The value of the digits is read off their text. -/
theorem decimalValue_positional {d : Digits} (h : ∀ x ∈ d.digits, x < 10) :
    decimalValue (positional d).toList = d.value := by
  obtain ⟨as, htext, -, ha, hvalue⟩ | ⟨as, bs, htext, -, -, ha, hb, hvalue⟩ := positional_shape d h
  · rw [htext, decimalValue_whole ha, hvalue]
  · rw [htext, decimalValue_point ha hb, hvalue]

/-- A positional form has only digits and a point. -/
theorem positional_chars {d : Digits} (h : ∀ x ∈ d.digits, x < 10) {c : Char}
    (hc : c ∈ (positional d).toList) : c.isDigit = true ∨ c = '.' := by
  obtain ⟨as, htext, -, ha, -⟩ | ⟨as, bs, htext, -, -, ha, hb, -⟩ := positional_shape d h
  · rw [htext] at hc
    exact .inl (isDigit_of_mem_digitChars ha hc)
  · rw [htext, List.mem_append, List.mem_cons] at hc
    obtain hc | rfl | hc := hc
    · exact .inl (isDigit_of_mem_digitChars ha hc)
    · exact .inr rfl
    · exact .inl (isDigit_of_mem_digitChars hb hc)

/-- A positional form starts with a digit. -/
theorem positional_head {d : Digits} (h : ∀ x ∈ d.digits, x < 10) :
    ∃ c cs, (positional d).toList = c :: cs ∧ c.isDigit = true := by
  obtain ⟨as, htext, hne, ha, -⟩ | ⟨as, bs, htext, hne, -, ha, -, -⟩ := positional_shape d h
  all_goals
    obtain ⟨a, as, rfl⟩ := List.exists_cons_of_ne_nil hne
    exact ⟨_, _, htext, isDigit_digitChar (ha a (by simp))⟩

/-! ## the text of a double -/

theorem toList_signText (x : Float) :
    (signText x).toList = if isNegative x then ['-'] else [] := by
  unfold signText
  split <;> rfl

theorem toList_plain {x : Float} (h : isFinite x = true) :
    (plain x).toList =
      (if isNegative x then ['-'] else []) ++ (positional (shortest (Parts.of x))).toList := by
  rw [plain, if_pos h, String.toList_append, toList_signText]

/-- The text of a finite double begins with a digit, or with a sign and a digit. -/
theorem plain_head {x : Float} (h : isFinite x = true) :
    ∃ (c : Char) (cs : List Char),
      (plain x).toList = (if isNegative x then ['-'] else []) ++ c :: cs ∧ c.isDigit = true := by
  obtain ⟨c, cs, htext, hc⟩ := positional_head (shortest_digits_lt (Parts.of x))
  exact ⟨c, cs, by rw [toList_plain h, htext], hc⟩

/-- What is not finite is printed by name. -/
theorem plain_of_not_isFinite {x : Float} (h : isFinite x = false) :
    (isNotANumber x = true ∧ plain x = "NaN") ∨
      (exponentField x = 0x7FF ∧ fractionField x = 0 ∧
        plain x = if isNegative x then "-Inf" else "+Inf") := by
  have hlt := exponentField_lt x
  have hexp : exponentField x = 0x7FF := by
    rw [isFinite, decide_eq_false_iff_not] at h
    omega
  rw [plain, if_neg (by rw [h]; decide), nonFinite]
  by_cases hn : isNotANumber x = true
  · exact .inl ⟨hn, by rw [if_pos hn]⟩
  · refine .inr ⟨hexp, ?_, by rw [if_neg hn]⟩
    rw [isNotANumber, hexp] at hn
    simpa using hn

/-- No number is printed as nothing. -/
theorem plain_ne_nil (x : Float) : (plain x).toList ≠ [] := by
  cases hx : isFinite x with
  | true =>
    obtain ⟨c, cs, htext, -⟩ := plain_head hx
    simp [htext]
  | false =>
    obtain ⟨-, h⟩ | ⟨-, -, h⟩ := plain_of_not_isFinite hx <;> rw [h]
    · decide
    · split <;> decide

/-- No finite number is printed like one that is not. -/
theorem plain_ne_of_isFinite {x y : Float} (hx : isFinite x = true) (hy : isFinite y = false) :
    plain x ≠ plain y := by
  intro h
  obtain ⟨c, cs, htext, hc⟩ := plain_head hx
  rw [h] at htext
  obtain ⟨-, hy⟩ | ⟨-, -, hy⟩ := plain_of_not_isFinite hy
  · rw [hy] at htext
    cases hsx : isNegative x <;> simp [hsx] at htext
    exact absurd hc (by rw [← htext.1]; decide)
  · rw [hy] at htext
    cases hsx : isNegative x <;> cases hsy : isNegative y <;> simp [hsx, hsy] at htext <;>
      exact absurd hc (by rw [← htext.1]; decide)

/-- No two doubles are written alike. -/
theorem plain_injective : Function.Injective plain := by
  intro x y h
  cases hx : isFinite x with
  | true =>
    cases hy : isFinite y with
    | true =>
      obtain ⟨c, cs, hxt, hc⟩ := positional_head (shortest_digits_lt (Parts.of x))
      obtain ⟨d, ds, hyt, hd⟩ := positional_head (shortest_digits_lt (Parts.of y))
      have htext := congrArg String.toList h
      rw [toList_plain hx, toList_plain hy] at htext
      have hminus : ∀ e : Char, e.isDigit = true → e ≠ '-' := by
        rintro e he rfl
        exact absurd he (by decide)
      have hboth : isNegative x = isNegative y ∧
          positional (shortest (Parts.of x)) = positional (shortest (Parts.of y)) := by
        rw [← String.toList_inj, hxt, hyt]
        rw [hxt, hyt] at htext
        cases hsx : isNegative x <;> cases hsy : isNegative y <;> simp [hsx, hsy] at htext ⊢
        · exact htext
        · exact absurd htext.1 (hminus c hc)
        · exact absurd htext.1.symm (hminus d hd)
        · exact htext
      have hvalue : (shortest (Parts.of x)).value = (shortest (Parts.of y)).value := by
        rw [← decimalValue_positional (shortest_digits_lt _), hboth.2,
          decimalValue_positional (shortest_digits_lt _)]
      have hcovers := covers_shortest (Parts.normal_of hx)
      rw [hvalue] at hcovers
      exact eq_of_parts hboth.1 (hcovers.eq (Parts.normal_of hx) (Parts.normal_of hy)
        (covers_shortest (Parts.normal_of hy)))
    | false => exact absurd h (plain_ne_of_isFinite hx hy)
  | false =>
    cases hy : isFinite y with
    | true => exact absurd h.symm (plain_ne_of_isFinite hy hx)
    | false =>
      obtain ⟨hnx, hxt⟩ | ⟨hex, hfx, hxt⟩ := plain_of_not_isFinite hx <;>
        obtain ⟨hny, hyt⟩ | ⟨hey, hfy, hyt⟩ := plain_of_not_isFinite hy <;> rw [hxt, hyt] at h
      · exact eq_of_isNotANumber hnx hny
      · cases hsy : isNegative y <;> simp [hsy] at h
      · cases hsx : isNegative x <;> simp [hsx] at h
      · refine eq_of_fields ?_ (hex.trans hey.symm) (hfx.trans hfy.symm)
        cases hsx : isNegative x <;> cases hsy : isNegative y <;> simp [hsx, hsy] at h <;> rfl

end EffectChain.Number
