import Mathlib
import EffectChain.Proofs.Number.Shortest

/-!
# EffectChain.Proofs.Number.Nearest

The double nearest to a quotient.

Its size is the one whose interval has the quotient in it (`nearest?_eq`), and a finite double is
nearest to every quotient in its interval (`nearest?_of_covers`).
-/

namespace EffectChain.Number

open Float.Model (Format UnpackedFloat)

/-! ## bits -/

/-- A pattern of bits is kept if it is that of a finite double. -/
theorem toBits_ofBits {b : UInt64} (h : b.toNat / 2 ^ 52 % 2 ^ 11 ≠ 0x7FF) :
    (Float.ofBits b).toBits = b := by
  have hnan : @UnpackedFloat.isNaNBits Format.binary64 b.toBitVec = false := by
    simp only [Float.Model.UnpackedFloat.isNaNBits, decide_eq_false_iff_not, not_and]
    intro hexp
    have hnat := congrArg BitVec.toNat hexp
    rw [toNat_unpackExponent] at hnat
    exact absurd hnat h
  have hpack := @UnpackedFloat.pack_unpack Format.binary64 b.toBitVec (by decide)
  rw [hnan, if_neg (by decide)] at hpack
  change UInt64.ofBitVec
    (UnpackedFloat.pack Format.binary64 (UnpackedFloat.unpack Format.binary64 b.toBitVec)) = b
  rw [hpack]

/-- The bits of a finite double that is not negative are the field of its exponent and that of its
fraction. -/
theorem fields_ofBits {e f : Nat} (he : e < 0x7FF) (hf : f < 0x10000000000000) :
    exponentField (Float.ofBits (e * 0x10000000000000 + f).toUInt64) = e ∧
      fractionField (Float.ofBits (e * 0x10000000000000 + f).toUInt64) = f ∧
      isNegative (Float.ofBits (e * 0x10000000000000 + f).toUInt64) = false := by
  have hbits : (e * 0x10000000000000 + f).toUInt64.toNat = e * 0x10000000000000 + f := by
    simp only [Nat.toUInt64_eq, UInt64.toNat_ofNat']
    omega
  have hkept : (Float.ofBits (e * 0x10000000000000 + f).toUInt64).toBits =
      (e * 0x10000000000000 + f).toUInt64 :=
    toBits_ofBits (by omega)
  refine ⟨?_, ?_, ?_⟩
  · rw [exponentField_eq, hkept, hbits]
    omega
  · rw [fractionField_eq, hkept, hbits]
    omega
  · rw [← Bool.not_eq_true, isNegative_iff, hkept, hbits]
    omega

/-- Every size of a finite double is that of one. -/
theorem Parts.toFloat?_eq {p : Parts} (hp : p.Normal) :
    ∃ y, p.toFloat? = some y ∧ Parts.of y = p ∧ isNegative y = false ∧ isFinite y = true := by
  have hmin := minExponent_eq
  obtain ⟨hlt, hge, hle, hfull⟩ := hp
  obtain ⟨m, e⟩ := p
  dsimp only at hlt hge hle hfull
  unfold Parts.toFloat?
  dsimp only
  split
  case isTrue hsmall =>
    obtain ⟨hexp, hfrac, hsign⟩ := fields_ofBits (e := 0) (by decide) hsmall
    rw [Nat.zero_mul, Nat.zero_add] at hexp hfrac hsign
    obtain rfl : e = minExponent := hfull.resolve_left (by omega)
    refine ⟨_, rfl, ?_, hsign, ?_⟩
    · rw [Parts.of, hexp, hfrac]
    · rw [isFinite, hexp]
      decide
  case isFalse hlarge =>
    obtain ⟨k, hk⟩ : ∃ k : Nat, (e - minExponent + 1).toNat = k + 1 :=
      ⟨(e - minExponent).toNat, by omega⟩
    have hfield : k + 1 < 0x7FF := by omega
    obtain ⟨hexp, hfrac, hsign⟩ := fields_ofBits (f := m - 0x10000000000000) hfield (by omega)
    rw [hk, if_pos hfield]
    refine ⟨_, rfl, ?_, hsign, ?_⟩
    · rw [Parts.of, hexp, hfrac, Parts.mk.injEq]
      omega
    · rw [isFinite, hexp, decide_eq_true_iff]
      exact hfield

/-! ## the nearest double -/

theorem lt_log2 {num den : Nat} (hn : 0 < num) (hd : 0 < den) :
    (num / den : ℚ) < 2 ^ ((num.log2 : Int) - den.log2 + 1) := by
  have h := log2_lt hd hn
  have hratio : (0 : ℚ) < num / den := by positivity
  rw [← inv_div, lt_inv_comm₀ (by positivity) hratio, ← zpow_neg] at h
  rwa [show (num.log2 : Int) - den.log2 + 1 = -((den.log2 : Int) - num.log2 - 1) by ring]

/-- A half goes to the even number. -/
theorem roundQuotient_even {n d : Nat} (hd : 0 < d) :
    roundQuotient n d % 2 = 0 ∨ |(roundQuotient n d : ℚ) - n / d| < 1 / 2 := by
  by_contra hnot
  rw [not_or, not_lt] at hnot
  obtain ⟨hodd, hfar⟩ := hnot
  have hdq : (0 : ℚ) < d := by exact_mod_cast hd
  have hmod := Nat.mod_lt n hd
  have hdiv : n = d * (n / d) + n % d := (Nat.div_add_mod n d).symm
  -- twice the distance is the denominator, so that the remainder is half of it
  have htwo : |2 * ((roundQuotient n d : ℚ) * d - n)| = d := by
    have hclose := roundQuotient_close (n := n) hd
    have heq : |(roundQuotient n d : ℚ) - n / d| = 1 / 2 := le_antisymm hclose hfar
    have hmul : 2 * ((roundQuotient n d : ℚ) * d - n) = 2 * d * (roundQuotient n d - n / d) := by
      field_simp
    rw [hmul, abs_mul, heq, abs_of_pos (by positivity)]
    ring
  have hint : |2 * ((roundQuotient n d : Int) * d - n)| = d := by exact_mod_cast htwo
  unfold roundQuotient at hodd hint
  dsimp only at hodd hint
  generalize n / d = a at *
  generalize n % d = r at *
  subst hdiv
  split at hodd
  · rename_i hup
    rw [if_pos hup] at hint
    rw [Bool.or_eq_true, Bool.and_eq_true, decide_eq_true_iff, decide_eq_true_iff,
      decide_eq_true_iff] at hup
    have hdist : 2 * (((a + 1 : Nat) : Int) * d - (d * a + r : Nat)) = 2 * ((d : Int) - r) := by
      push_cast
      ring
    rw [hdist, abs_of_pos (by omega)] at hint
    omega
  · rename_i hdown
    rw [if_neg hdown] at hint
    rw [Bool.or_eq_true, Bool.and_eq_true, decide_eq_true_iff, decide_eq_true_iff,
      decide_eq_true_iff] at hdown
    have hdist : 2 * ((a : Int) * d - (d * a + r : Nat)) = -(2 * (r : Int)) := by
      push_cast
      ring
    rw [hdist, abs_neg, abs_of_nonneg (by omega)] at hint
    omega

/-- A number of units rounded to the nearest whole one is the mantissa of a size that covers it. -/
theorem covers_of_roundQuotient {q : ℚ} {e : Int} {n d : Nat} (hd : 0 < d)
    (hunits : (n / d : ℚ) = q / 2 ^ e) (hfull : 2 ^ 52 ≤ q / 2 ^ e ∨ e = minExponent) :
    Parts.Covers ⟨roundQuotient n d, e⟩ q := by
  have hclose := roundQuotient_close (n := n) hd
  have heven := roundQuotient_even (n := n) hd
  rw [hunits] at hclose heven
  generalize roundQuotient n d = m at *
  rw [abs_le] at hclose
  rw [abs_lt] at heven
  by_cases hreach : m = 2 ^ 52 ∧ e ≠ minExponent
  · have hge := hfull.resolve_right hreach.2
    have hm : (m : ℚ) = 2 ^ 52 := by exact_mod_cast hreach.1
    refine ⟨?_, by dsimp only; linarith, .inl (by dsimp only; rw [hreach.1]; decide)⟩
    rw [Parts.reach, if_pos hreach]
    dsimp only
    linarith
  · refine ⟨?_, by dsimp only; linarith, heven.imp_right fun h => ?_⟩
    · rw [Parts.reach, if_neg hreach]
      dsimp only
      linarith
    · rw [Parts.reach, if_neg hreach]
      dsimp only
      constructor <;> linarith

/-- A quotient has fifty-three bits in its units, or fewer with the least exponent. -/
theorem unitExponent_units {num den : Nat} (hn : 0 < num) (hd : 0 < den) :
    minExponent ≤ unitExponent num den ∧ (num / den / 2 ^ unitExponent num den : ℚ) < 2 ^ 53 ∧
      ((2 : ℚ) ^ 52 ≤ num / den / 2 ^ unitExponent num den ∨
        unitExponent num den = minExponent) := by
  have hlow := log2_lt hn hd
  have hhigh := lt_log2 hn hd
  unfold unitExponent
  dsimp only
  generalize hguess : (num.log2 : Int) - den.log2 - 52 = guess
  have hbelow : (scale num den guess).1 < (scale num den guess).2 * 0x10000000000000 ↔
      (num / den / 2 ^ guess : ℚ) < 2 ^ 52 := by
    have hpos : (0 : ℚ) < ((scale num den guess).2 : Nat) := by
      exact_mod_cast scale_pos num guess hd
    rw [← scale_ratio, div_lt_iff₀ hpos, mul_comm]
    norm_cast
  -- the logarithms give the units up to a factor of two
  have hg : (0 : ℚ) < 2 ^ guess := by positivity
  have htwo : (2 : ℚ) ^ ((num.log2 : Int) - den.log2) = 2 ^ guess * 2 ^ 52 := by
    rw [← zpow_natCast, ← zpow_add₀ (by norm_num), ← hguess]
    congr 1
    push_cast
    ring
  rw [zpow_sub₀ (by norm_num), zpow_one, htwo] at hlow
  rw [zpow_add₀ (by norm_num), zpow_one, htwo] at hhigh
  have hfit : ∃ fitted : Int,
      (if (scale num den guess).1 < (scale num den guess).2 * 0x10000000000000 then guess - 1
      else guess) = fitted ∧ (2 : ℚ) ^ 52 ≤ num / den / 2 ^ fitted ∧ (num / den / 2 ^ fitted : ℚ) <
          2 ^ 53 := by
    by_cases hsmall : (num / den / 2 ^ guess : ℚ) < 2 ^ 52
    · refine ⟨_, if_pos (hbelow.2 hsmall), ?_⟩
      rw [div_lt_iff₀ hg] at hsmall
      rw [zpow_sub₀ (by norm_num), zpow_one, le_div_iff₀ (by positivity),
        div_lt_iff₀ (by positivity)]
      constructor <;> linarith
    · refine ⟨_, if_neg fun h => hsmall (hbelow.1 h), not_lt.1 hsmall, ?_⟩
      rw [div_lt_iff₀ hg]
      linarith
  obtain ⟨fitted, hfitted, hge, hlt⟩ := hfit
  rw [hfitted]
  rcases max_cases fitted minExponent with ⟨hmax, hmin⟩ | ⟨hmax, hmin⟩ <;> rw [hmax]
  · exact ⟨hmin, hlt, .inl hge⟩
  · refine ⟨le_rfl, lt_of_le_of_lt ?_ hlt, .inr rfl⟩
    gcongr
    norm_num

/-- A quotient is rounded to the size of a double, which may be too large to be one. -/
theorem nearest?_eq {num den : Nat} (hn : 0 < num) (hd : 0 < den) :
    ∃ p : Parts, nearest? num den = p.toFloat? ∧ p.Covers (num / den) ∧ p.mantissa < 2 ^ 53 ∧
      minExponent ≤ p.exponent ∧ (2 ^ 52 ≤ p.mantissa ∨ p.exponent = minExponent) := by
  obtain ⟨hmin, hlt, hfull⟩ := unitExponent_units hn hd
  rw [nearest?, if_neg (by simp [hn.ne', hd.ne'])]
  dsimp only
  generalize unitExponent num den = e at *
  have hpos := scale_pos num e hd
  have hcovers := covers_of_roundQuotient hpos (scale_ratio num den e) hfull
  have hclose := roundQuotient_close (n := (scale num den e).1) hpos
  rw [scale_ratio, abs_le] at hclose
  generalize roundQuotient (scale num den e).1 (scale num den e).2 = m at hcovers hclose ⊢
  have hm : m ≤ 2 ^ 53 := by
    have hcast : (m : ℚ) < (2 ^ 53 + 1 : Nat) := by
      push_cast
      linarith
    have := Nat.cast_lt.1 hcast
    omega
  split
  case isTrue hcarry =>
    -- the quotient is closer to the power of two than half a unit
    have hhalf : (num / den / 2 ^ (e + 1) : ℚ) = num / den / 2 ^ e / 2 := by
      rw [zpow_add₀ (by norm_num), zpow_one, div_div (num / den : ℚ)]
    have hreach : Parts.reach ⟨0x10000000000000, e + 1⟩ = 1 / 4 :=
      if_pos ⟨by norm_num, by dsimp only; omega⟩
    have hcast : (m : ℚ) = 2 ^ 53 := by
      rw [hcarry]
      norm_num
    refine ⟨⟨0x10000000000000, e + 1⟩, rfl, ⟨?_, ?_, .inl (by norm_num)⟩, by norm_num,
      by dsimp only; omega, .inl (by norm_num)⟩
    · rw [hreach, hhalf]
      push_cast
      linarith
    · rw [hhalf]
      push_cast
      linarith
  case isFalse hcarry =>
    refine ⟨⟨m, e⟩, rfl, hcovers, by dsimp only; omega, hmin, hfull.imp_left fun hge => ?_⟩
    have hcast : ((2 ^ 52 - 1 : Nat) : ℚ) < m := by
      push_cast
      linarith
    have := Nat.cast_lt.1 hcast
    dsimp only
    omega

/-- The double nearest to a quotient is the one whose interval has the quotient in it. -/
theorem nearest?_of_covers {x : Float} (hx : isFinite x = true) (hsign : isNegative x = false)
    {num den : Nat} (hd : 0 < den) (h : (Parts.of x).Covers (num / den)) :
    nearest? num den = some x := by
  have hnormal := Parts.normal_of hx
  rcases Nat.eq_zero_or_pos num with rfl | hn
  · have hzero : (Parts.of (0 : Float)).Covers ((0 : Nat) / den) := by
      rw [Nat.cast_zero, zero_div, show Parts.of (0 : Float) = ⟨0, minExponent⟩ by decide +kernel]
      refine ⟨?_, ?_, .inl rfl⟩ <;> norm_num [Parts.reach]
    have hparts := h.eq hnormal (Parts.normal_of (by decide +kernel)) hzero
    have heq : (0 : Float) = x := eq_of_parts (hsign.symm ▸ by decide +kernel) hparts.symm
    rw [← heq]
    simp [nearest?]
  · obtain ⟨p, hp, hcovers, hlt, hge, hfull⟩ := nearest?_eq hn hd
    have hle := (h.exponent_le hnormal hfull hcovers).trans hnormal.exponent_le
    have hparts := hcovers.eq ⟨hlt, hge, hle, hfull⟩ hnormal h
    obtain ⟨y, hy, hof, hpositive, -⟩ := Parts.toFloat?_eq ⟨hlt, hge, hle, hfull⟩
    rw [hp, hy, Option.some.injEq]
    exact eq_of_parts (hpositive.trans hsign.symm) (hof.trans hparts)

end EffectChain.Number
