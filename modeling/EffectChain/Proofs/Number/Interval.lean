import EffectChain.Number.Shortest
import Mathlib.Algebra.Order.Field.Power
import Mathlib.Algebra.Order.Field.Rat
import Mathlib.Tactic.FieldSimp
import Mathlib.Tactic.Linarith
import Mathlib.Tactic.NormNum
import Mathlib.Tactic.Positivity

/-!
# EffectChain.Proofs.Number.Interval

A double is its sign, its exponent and its fraction (`eq_of_fields`), so a finite one
is its sign and its size (`eq_of_parts`).

`Parts.Covers` says which rationals round to a size, in units of its last place.  Two
sizes that cover the same rational are the same (`Parts.Covers.eq`): the intervals of
doubles only touch, and where they touch the point belongs to the even mantissa.
-/

namespace EffectChain.Number

open Float.Model (Format UnpackedFloat)
open Float.Model.UnpackedFloat (unpackExponent unpackMantissa)

/-! ## fields -/

theorem exponentField_eq (x : Float) : exponentField x = x.toBits.toNat / 2 ^ 52 % 2 ^ 11 := by
  simp only [exponentField, UInt64.toNat_and, UInt64.toNat_shiftRight]
  rw [show (0x7FF : UInt64).toNat = 2 ^ 11 - 1 from rfl, Nat.and_two_pow_sub_one_eq_mod]
  simp [Nat.shiftRight_eq_div_pow]

theorem fractionField_eq (x : Float) : fractionField x = x.toBits.toNat % 2 ^ 52 := by
  simp only [fractionField, UInt64.toNat_and]
  rw [show (0xFFFFFFFFFFFFF : UInt64).toNat = 2 ^ 52 - 1 from rfl, Nat.and_two_pow_sub_one_eq_mod]

/-- A float is negative when its highest bit is set. -/
theorem isNegative_iff (x : Float) : isNegative x = true ↔ 2 ^ 63 ≤ x.toBits.toNat := by
  have h := x.toBits.toNat_lt
  have h63 : UInt64.toNat 63 % 64 = 63 := rfl
  have h1 : UInt64.toNat 1 = 1 := rfl
  rw [isNegative, decide_eq_true_iff, ← UInt64.toNat_inj, UInt64.toNat_shiftRight,
    Nat.shiftRight_eq_div_pow, h63, h1]
  omega

theorem fractionField_lt (x : Float) : fractionField x < 2 ^ 52 := by
  rw [fractionField_eq]
  omega

theorem exponentField_lt (x : Float) : exponentField x < 2 ^ 11 := by
  rw [exponentField_eq]
  omega

/-- A double is its sign, its exponent and its fraction. -/
theorem eq_of_fields {x y : Float} (hs : isNegative x = isNegative y)
    (he : exponentField x = exponentField y) (hf : fractionField x = fractionField y) : x = y := by
  have hx := x.toBits.toNat_lt
  have hy := y.toBits.toNat_lt
  have hsign : 2 ^ 63 ≤ x.toBits.toNat ↔ 2 ^ 63 ≤ y.toBits.toNat := by
    rw [← isNegative_iff, ← isNegative_iff, hs]
  rw [exponentField_eq, exponentField_eq] at he
  rw [fractionField_eq, fractionField_eq] at hf
  have hbits : x.toBits = y.toBits := UInt64.toNat_inj.1 (by omega)
  obtain ⟨⟨a, ha⟩⟩ := x
  obtain ⟨⟨b, hb⟩⟩ := y
  obtain rfl : a = b := hbits
  rfl

theorem toNat_unpackMantissa (b : BitVec Format.binary64.numBits) :
    (unpackMantissa b).toNat = b.toNat % 2 ^ 52 := by
  simp [unpackMantissa, BitVec.extractLsb, BitVec.extractLsb']

theorem toNat_unpackExponent (b : BitVec Format.binary64.numBits) :
    (unpackExponent b).toNat = b.toNat / 2 ^ 52 % 2 ^ 11 := by
  simp [unpackExponent, BitVec.extractLsb, BitVec.extractLsb', Nat.shiftRight_eq_div_pow]

/-- There is one pattern for what is not a number. -/
theorem toBitVec_of_isNotANumber {x : Float} (h : isNotANumber x = true) :
    x.toBits.toBitVec = UnpackedFloat.packedNaN Format.binary64 := by
  rw [isNotANumber, Bool.and_eq_true, decide_eq_true_iff, decide_eq_true_iff, exponentField_eq,
    fractionField_eq] at h
  refine x.toModel.valid.eq_packedNaN (BitVec.eq_of_toNat_eq ?_) fun hzero => h.2 ?_
  · rw [toNat_unpackExponent]
    exact h.1
  · have hnat := congrArg BitVec.toNat hzero
    rw [toNat_unpackMantissa] at hnat
    exact hnat

/-- There is one float that is not a number. -/
theorem eq_of_isNotANumber {x y : Float} (hx : isNotANumber x = true) (hy : isNotANumber y = true) :
    x = y := by
  have hbits : x.toBits = y.toBits :=
    UInt64.toBitVec_inj.1 ((toBitVec_of_isNotANumber hx).trans (toBitVec_of_isNotANumber hy).symm)
  refine eq_of_fields ?_ ?_ ?_
  · rw [isNegative, isNegative, hbits]
  · rw [exponentField, exponentField, hbits]
  · rw [fractionField, fractionField, hbits]

/-! ## sizes -/

theorem minExponent_eq : minExponent = -1074 := rfl

/-- A float is subnormal, or has a leading bit and an exponent. -/
theorem Parts.of_cases (x : Float) :
    (exponentField x = 0 ∧ Parts.of x = ⟨fractionField x, minExponent⟩) ∨
      ∃ e : Nat, exponentField x = e + 1 ∧
        Parts.of x = ⟨2 ^ 52 + fractionField x, minExponent + e⟩ := by
  unfold Parts.of
  split
  case h_1 h => exact .inl ⟨h, rfl⟩
  case h_2 e h => exact .inr ⟨e, h, rfl⟩

/-- A finite double is its sign and its size. -/
theorem eq_of_parts {x y : Float} (hs : isNegative x = isNegative y) (h : Parts.of x = Parts.of y) :
    x = y := by
  have hx := fractionField_lt x
  have hy := fractionField_lt y
  obtain ⟨ex, px⟩ | ⟨e, ex, px⟩ := Parts.of_cases x <;>
    obtain ⟨ey, py⟩ | ⟨e', ey, py⟩ := Parts.of_cases y <;>
    rw [px, py, Parts.mk.injEq] at h
  · exact eq_of_fields hs (by omega) h.1
  · omega
  · omega
  · exact eq_of_fields hs (by omega) (by omega)

/-- The sizes of finite doubles: a mantissa of fifty-three bits, less only at the
least exponent. -/
structure Parts.Normal (p : Parts) : Prop where
  mantissa_lt : p.mantissa < 2 ^ 53
  exponent_ge : minExponent ≤ p.exponent
  exponent_le : p.exponent ≤ 971
  full : 2 ^ 52 ≤ p.mantissa ∨ p.exponent = minExponent

/-- The parts of a finite float are normal. -/
theorem Parts.normal_of {x : Float} (h : isFinite x = true) : (Parts.of x).Normal := by
  have hmin := minExponent_eq
  have hfrac := fractionField_lt x
  rw [isFinite, decide_eq_true_iff] at h
  obtain ⟨-, hp⟩ | ⟨e, he, hp⟩ := Parts.of_cases x <;>
    rw [hp] <;> constructor <;> dsimp only <;> omega

/-! ## intervals -/

/-- How far the interval reaches below the mantissa: half a unit, under a power of
two a quarter. -/
def Parts.reach (p : Parts) : ℚ :=
  if p.mantissa = 2 ^ 52 ∧ p.exponent ≠ minExponent then 1 / 4 else 1 / 2

theorem Parts.reach_bounds (p : Parts) : 1 / 4 ≤ p.reach ∧ p.reach ≤ 1 / 2 := by
  unfold Parts.reach
  split <;> norm_num

/-- The rational rounds to the size.  The bounds are in units of the last place; the
ends of the interval belong to an even mantissa. -/
structure Parts.Covers (p : Parts) (q : ℚ) : Prop where
  low : p.mantissa - p.reach ≤ q / 2 ^ p.exponent
  high : q / 2 ^ p.exponent ≤ p.mantissa + 1 / 2
  ends : p.mantissa % 2 = 0 ∨
    (p.mantissa - p.reach < q / 2 ^ p.exponent ∧ q / 2 ^ p.exponent < p.mantissa + 1 / 2)

namespace Parts.Covers

variable {p p' : Parts} {q : ℚ}

/-- What is closer than a quarter of a unit lies in the interval. -/
theorem of_close (hlow : p.mantissa - 1 / 4 < q / 2 ^ p.exponent)
    (hhigh : q / 2 ^ p.exponent < p.mantissa + 1 / 4) : p.Covers q := by
  obtain ⟨h1, -⟩ := p.reach_bounds
  exact ⟨by linarith, by linarith, .inr ⟨by linarith, by linarith⟩⟩

/-- The interval ends below the power of two after the mantissa. -/
theorem lt (hp : p.Normal) (h : p.Covers q) : q / 2 ^ p.exponent < 2 ^ 53 - 1 / 2 := by
  have hlt := hp.mantissa_lt
  obtain heven | ⟨-, hhigh⟩ := h.ends
  · have hle : ((p.mantissa + 2 : Nat) : ℚ) ≤ (2 ^ 53 : Nat) := by
      exact_mod_cast (by omega : p.mantissa + 2 ≤ 2 ^ 53)
    push_cast at hle
    linarith [h.high]
  · have hle : ((p.mantissa + 1 : Nat) : ℚ) ≤ (2 ^ 53 : Nat) := by
      exact_mod_cast hlt
    push_cast at hle
    linarith

/-- The interval of a full mantissa begins a quarter of a unit below the least one at
most. -/
theorem ge (hfull : 2 ^ 52 ≤ p.mantissa) (hmin : p.exponent ≠ minExponent) (h : p.Covers q) :
    2 ^ 52 - 1 / 4 ≤ q / 2 ^ p.exponent := by
  by_cases heq : p.mantissa = 2 ^ 52
  · have hreach : p.reach = 1 / 4 := if_pos ⟨heq, hmin⟩
    have hlow := h.low
    rw [hreach, heq] at hlow
    push_cast at hlow
    exact hlow
  · obtain ⟨-, hreach⟩ := p.reach_bounds
    have hge : ((2 ^ 52 + 1 : Nat) : ℚ) ≤ p.mantissa := by
      exact_mod_cast (by omega : 2 ^ 52 + 1 ≤ p.mantissa)
    push_cast at hge
    linarith [h.low]

/-- Of two floats that cover a number, one with a full mantissa has no larger exponent. -/
theorem exponent_le (hp : p.Normal) (hfull : 2 ^ 52 ≤ p'.mantissa ∨ p'.exponent = minExponent)
    (h : p.Covers q) (h' : p'.Covers q) : p'.exponent ≤ p.exponent := by
  by_contra hlt
  rw [not_le] at hlt
  have hmin : p'.exponent ≠ minExponent := by
    have := hp.exponent_ge
    omega
  have hge := h'.ge (hfull.resolve_right hmin) hmin
  have hhigh := h.lt hp
  -- the same rational is at least twice as many units of the smaller exponent
  have hpos : (0 : ℚ) < 2 ^ p'.exponent := by positivity
  have hunits : q / 2 ^ p.exponent = q / 2 ^ p'.exponent * 2 ^ (p'.exponent - p.exponent) := by
    rw [zpow_sub₀ (by norm_num)]
    field_simp
  have htwo : (2 : ℚ) ≤ 2 ^ (p'.exponent - p.exponent) := by
    calc (2 : ℚ) = 2 ^ (1 : Int) := by norm_num
      _ ≤ 2 ^ (p'.exponent - p.exponent) := zpow_le_zpow_right₀ (by norm_num) (by omega)
  rw [hunits] at hhigh
  nlinarith

/-- Of two floats that cover a number, equal exponents order the mantissas. -/
theorem mantissa_le (hexp : p.exponent = p'.exponent) (h : p.Covers q) (h' : p'.Covers q) :
    p'.mantissa ≤ p.mantissa := by
  obtain ⟨-, hr⟩ := p'.reach_bounds
  have hlow := h'.low
  rw [← hexp] at hlow
  have hle : (p'.mantissa : ℚ) ≤ p.mantissa + 1 := by linarith [h.high]
  have hle' : p'.mantissa ≤ p.mantissa + 1 := by exact_mod_cast hle
  by_contra hlt
  have hnext : p'.mantissa = p.mantissa + 1 := by omega
  -- one of two consecutive mantissas is odd, and its interval has no ends
  have hcast : (p'.mantissa : ℚ) = p.mantissa + 1 := by exact_mod_cast hnext
  obtain heven | ⟨-, hhigh⟩ := h.ends
  · obtain heven' | ⟨hlow', -⟩ := h'.ends
    · omega
    · rw [← hexp] at hlow'
      linarith [h.high]
  · linarith

/-- A rational rounds to one size only. -/
theorem eq (hp : p.Normal) (hp' : p'.Normal) (h : p.Covers q) (h' : p'.Covers q) : p = p' := by
  have hexp : p.exponent = p'.exponent :=
    Int.le_antisymm (exponent_le hp' hp.full h' h) (exponent_le hp hp'.full h h')
  have hman : p.mantissa = p'.mantissa :=
    Nat.le_antisymm (mantissa_le hexp.symm h' h) (mantissa_le hexp h h')
  cases p
  cases p'
  simp_all

end Parts.Covers

end EffectChain.Number
