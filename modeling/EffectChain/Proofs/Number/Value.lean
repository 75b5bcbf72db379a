import EffectChain.Number.Whole
import EffectChain.Proofs.Number.Nearest
import Mathlib.Order.Compare

/-!
# EffectChain.Proofs.Number.Value

Doubles compared and rounded by their values.

What is not a number is neither less nor greater than anything, so a double that is not less than a
bound need not be at least the bound.

* `lt_iff_value`, `gt_iff_value` — of two doubles the one with the smaller value is less, if one is
  finite and the other a number;
* `ofInt_natCast` — the whole numbers of fifty-three bits are doubles;
* `value_round` — the nearest whole number, halfway the one further from zero.
-/

namespace EffectChain.Number

open Float.Model (Format UnpackedFloat)
open Float.Model.UnpackedFloat (unpackExponent unpackMantissa unpackSign Sign)

/-! ## comparing -/

theorem compare_sign_swap (s s' : Float.Model.UnpackedFloat.Sign) :
    (compare s s').swap = compare s' s := by
  cases s <;> cases s' <;> rfl

/-- Two doubles compare the other way round as they compare. -/
theorem swap_compare (a b : UnpackedFloat) : (a.compare b).map Ordering.swap = b.compare a := by
  cases a with
  | notANumber => cases b <;> rfl
  | infinity sign =>
      cases b with
      | infinity sign' => exact congrArg some (compare_sign_swap sign sign')
      | _ => cases sign <;> rfl
  | zero sign =>
      cases b with
      | finite sign' => cases sign' <;> rfl
      | infinity sign' => cases sign' <;> rfl
      | _ => rfl
  | finite sign mantissa exponent =>
      cases b with
      | finite sign' mantissa' exponent' =>
          have hswap : ((compare exponent exponent').then (compare mantissa mantissa')).swap =
              (compare exponent' exponent).then (compare mantissa' mantissa) := by
            rw [Ordering.swap_then, Int.compare_swap, Nat.compare_swap]
          cases sign <;> cases sign'
          · exact congrArg (fun o => some o.swap) hswap
          · rfl
          · rfl
          · exact congrArg some hswap
      | infinity sign' => cases sign' <;> cases sign <;> rfl
      | _ => cases sign <;> rfl

/-- The order of floats is that of their unpacked forms. -/
theorem lt_iff {x y : Float} : x < y ↔ x.toModel.unpack.compare y.toModel.unpack = some .lt := by
  change decide (x.toModel < y.toModel) = true ↔ _
  rw [decide_eq_true_iff]
  change x.toModel.unpack.lt y.toModel.unpack = true ↔ _
  simp [UnpackedFloat.lt]

/-- One float is at most another when their unpacked forms are ordered and not the wrong way
round. -/
theorem le_iff {x y : Float} :
    x ≤ y ↔ ∃ o, x.toModel.unpack.compare y.toModel.unpack = some o ∧ o ≠ .gt := by
  change decide (x.toModel ≤ y.toModel) = true ↔ _
  rw [decide_eq_true_iff]
  change x.toModel.unpack.le y.toModel.unpack = true ↔ _
  simp [UnpackedFloat.le, Option.any_eq_true, Ordering.isLE_iff_ne_gt]

theorem beq_iff {x y : Float} :
    (x == y) = true ↔ x.toModel.unpack.compare y.toModel.unpack = some .eq := by
  change (x.toModel.unpack.compare y.toModel.unpack == some .eq) = true ↔ _
  exact beq_iff_eq

/-- No float is below itself. -/
theorem not_lt_self (x : Float) : ¬ x < x := by
  rw [lt_iff]
  intro h
  have hswap := swap_compare x.toModel.unpack x.toModel.unpack
  simp [h] at hswap

theorem not_lt_of_le {x y : Float} (h : x ≤ y) : ¬ y < x := by
  obtain ⟨o, ho, hgt⟩ := le_iff.1 h
  rw [lt_iff, ← swap_compare, ho]
  cases o <;> simp_all

/-! ## values -/

/-- The value of a finite double. -/
def value (x : Float) : ℚ := if isNegative x then -(Parts.of x).value else (Parts.of x).value

theorem Parts.value_nonneg (p : Parts) : 0 ≤ p.value := by
  unfold Parts.value
  positivity

theorem Parts.value_eq_zero_iff {p : Parts} : p.value = 0 ↔ p.mantissa = 0 := by
  simp [Parts.value, zpow_ne_zero]

/-- The parts of a float cover its own magnitude. -/
theorem Parts.covers_value (p : Parts) : p.Covers p.value := by
  obtain ⟨hreach, -⟩ := p.reach_bounds
  have hunits : p.value / 2 ^ p.exponent = p.mantissa := by
    rw [Parts.value, mul_div_cancel_right₀]
    positivity
  refine ⟨?_, ?_, .inr ⟨?_, ?_⟩⟩ <;> rw [hunits] <;> linarith

/-- A size with a greater exponent is greater, if it has all its bits. -/
theorem Parts.value_lt_of_exponent_lt {p p' : Parts} (hp : p.mantissa < 2 ^ 53)
    (hp' : 2 ^ 52 ≤ p'.mantissa) (h : p.exponent < p'.exponent) : p.value < p'.value := by
  have hlt : (p.mantissa : ℚ) < 2 ^ 53 := by exact_mod_cast hp
  have hge : (2 : ℚ) ^ 52 ≤ p'.mantissa := by exact_mod_cast hp'
  calc p.value = p.mantissa * 2 ^ p.exponent := rfl
    _ < 2 ^ 53 * 2 ^ p.exponent := by gcongr
    _ = 2 ^ 52 * 2 ^ (p.exponent + 1) := by
      rw [zpow_add₀ (by norm_num), zpow_one]
      ring
    _ ≤ 2 ^ 52 * 2 ^ p'.exponent := by
      gcongr
      · norm_num
      · omega
    _ ≤ p'.mantissa * 2 ^ p'.exponent := by gcongr

/-- A size whose exponent is not the least one has all its bits. -/
theorem Parts.Normal.full_of_lt {p p' : Parts} (hp : p.Normal) (hp' : p'.Normal)
    (h : p.exponent < p'.exponent) :
    2 ^ 52 ≤ p'.mantissa := by
  refine hp'.full.resolve_right fun hmin => ?_
  have := hp.exponent_ge
  omega

/-- Sizes compare by their exponents first. -/
theorem Parts.compare_value {p p' : Parts} (hp : p.Normal) (hp' : p'.Normal) :
    (compare p.exponent p'.exponent).then (compare p.mantissa p'.mantissa) =
      compare p.value p'.value := by
  rcases lt_trichotomy p.exponent p'.exponent with h | h | h
  · rw [compare_lt_iff_lt.2 h,
      compare_lt_iff_lt.2 (value_lt_of_exponent_lt hp.mantissa_lt (hp.full_of_lt hp' h) h)]
    rfl
  · have hpos : (0 : ℚ) < 2 ^ p'.exponent := by positivity
    rw [compare_eq_iff_eq.2 h, Parts.value, Parts.value, h]
    change compare p.mantissa p'.mantissa = _
    rcases lt_trichotomy p.mantissa p'.mantissa with hm | hm | hm
    · rw [compare_lt_iff_lt.2 hm, eq_comm, compare_lt_iff_lt, mul_lt_mul_iff_left₀ hpos]
      exact_mod_cast hm
    · rw [compare_eq_iff_eq.2 hm, hm, eq_comm, compare_eq_iff_eq]
    · rw [compare_gt_iff_gt.2 hm, eq_comm, compare_gt_iff_gt, mul_lt_mul_iff_left₀ hpos]
      exact_mod_cast hm
  · rw [compare_gt_iff_gt.2 h,
      compare_gt_iff_gt.2 (value_lt_of_exponent_lt hp'.mantissa_lt (hp'.full_of_lt hp h) h)]
    rfl

/-! ## the order of doubles -/

/-- The sign of a double. -/
def sign (x : Float) : Sign := if isNegative x then .negative else .positive

/-- The sign bit that is unpacked is the sign. -/
theorem unpackSign_eq (x : Float) :
    Sign.ofBitVec (@unpackSign Format.binary64 x.toBits.toBitVec) = sign x := by
  have hnat : (@unpackSign Format.binary64 x.toBits.toBitVec).toNat =
      x.toBits.toNat / 2 ^ 63 % 2 := by
    simp [unpackSign, BitVec.extractLsb, BitVec.extractLsb', Nat.shiftRight_eq_div_pow]
  have hneg := isNegative_iff x
  have hlt := x.toBits.toNat_lt
  have hzero : @unpackSign Format.binary64 x.toBits.toBitVec = 0#1 ↔ isNegative x ≠ true := by
    rw [ne_eq, hneg, ← BitVec.toNat_inj, hnat, BitVec.toNat_zero]
    omega
  unfold sign Sign.ofBitVec
  by_cases h : isNegative x = true
  · rw [if_pos h, if_neg (by rw [hzero]; exact not_not_intro h)]
  · rw [if_neg h, if_pos (hzero.2 h)]

theorem toNat_unpackExponent_toBits (x : Float) :
    (@unpackExponent Format.binary64 x.toBits.toBitVec).toNat = exponentField x := by
  rw [toNat_unpackExponent, exponentField_eq]
  rfl

theorem toNat_unpackMantissa_toBits (x : Float) :
    (@unpackMantissa Format.binary64 x.toBits.toBitVec).toNat = fractionField x := by
  rw [toNat_unpackMantissa, fractionField_eq]
  rfl

/-- A double is finite unless its exponent has all bits. -/
theorem isFinite_iff (x : Float) :
    isFinite x = true ↔ @unpackExponent Format.binary64 x.toBits.toBitVec ≠ -1#11 := by
  have hlt := exponentField_lt x
  have hones : (-1#11 : BitVec 11).toNat = 0x7FF := rfl
  rw [isFinite, decide_eq_true_iff, ne_eq, ← BitVec.toNat_inj, toNat_unpackExponent_toBits, hones]
  omega

/-- A finite double taken apart. -/
theorem unpack_eq {x : Float} (hx : isFinite x = true) :
    x.toModel.unpack = if h : (Parts.of x).mantissa = 0 then .zero (sign x)
      else .finite (sign x) (Parts.of x).mantissa (Parts.of x).exponent (Nat.pos_of_ne_zero h) := by
  have hexp := toNat_unpackExponent_toBits x
  have hfrac := toNat_unpackMantissa_toBits x
  change UnpackedFloat.unpack Format.binary64 x.toBits.toBitVec = _
  unfold UnpackedFloat.unpack
  dsimp only
  rw [unpackSign_eq, if_neg ((isFinite_iff x).1 hx)]
  obtain ⟨hzero, hparts⟩ | ⟨k, hpos, hparts⟩ := Parts.of_cases x
  · -- the least exponent
    have he : @unpackExponent Format.binary64 x.toBits.toBitVec = 0#11 :=
      BitVec.eq_of_toNat_eq (hexp.trans hzero)
    rw [if_pos he]
    simp only [hparts, hexp, hfrac, hzero]
    have hiff : @unpackMantissa Format.binary64 x.toBits.toBitVec = 0#52 ↔ fractionField x = 0 := by
      rw [← hfrac, ← BitVec.toNat_inj]
      rfl
    by_cases hm : fractionField x = 0
    · rw [dif_pos hm, dif_pos (hiff.2 hm)]
    · rw [dif_neg hm, dif_neg (fun h => hm (hiff.1 h))]
      rfl
  · have he : @unpackExponent Format.binary64 x.toBits.toBitVec ≠ 0#11 := by
      intro h
      rw [h] at hexp
      change 0 = _ at hexp
      omega
    have hm : (1#1 ++ @unpackMantissa Format.binary64 x.toBits.toBitVec).toNat =
        2 ^ 52 + (@unpackMantissa Format.binary64 x.toBits.toBitVec).toNat := by
      change 2 ^ 52 ||| (@unpackMantissa Format.binary64 x.toBits.toBitVec).toNat = _
      rw [Nat.or_comm, Nat.or_two_pow_eq_add_of_lt (BitVec.isLt _), Nat.add_comm]
    rw [if_neg he]
    simp only [hparts, hm, hexp, hfrac, hpos]
    rw [dif_neg (by omega)]
    congr 1
    rw [minExponent_eq]
    change ((k + 1 : Nat) : Int) - ((1023 : Nat) + (52 : Nat)) = _
    omega

/-- What is not finite, taken apart. -/
theorem unpack_of_not_isFinite {x : Float} (hx : isFinite x = false) :
    x.toModel.unpack = if isNotANumber x then .notANumber else .infinity (sign x) := by
  have hones := (isFinite_iff x).not.1 (by simp [hx])
  have hfrac : @unpackMantissa Format.binary64 x.toBits.toBitVec = 0#52 ↔ fractionField x = 0 := by
    rw [← toNat_unpackMantissa_toBits, ← BitVec.toNat_inj]
    rfl
  have hexp : exponentField x = 0x7FF := by
    rw [← toNat_unpackExponent_toBits, not_not.1 hones]
    rfl
  change UnpackedFloat.unpack Format.binary64 x.toBits.toBitVec = _
  unfold UnpackedFloat.unpack
  dsimp only
  rw [unpackSign_eq, if_pos (not_not.1 hones)]
  by_cases hzero : fractionField x = 0
  · rw [if_pos (hfrac.2 hzero), if_neg (by simp [isNotANumber, hzero])]
  · rw [if_neg (fun h => hzero (hfrac.1 h)), if_pos (by simp [isNotANumber, hexp, hzero])]

theorem isNotANumber_of_isFinite {x : Float} (hx : isFinite x = true) : isNotANumber x = false := by
  rw [isFinite, decide_eq_true_iff] at hx
  simp only [isNotANumber, Bool.and_eq_false_iff, decide_eq_false_iff_not]
  exact .inl (by omega)

/-- The library's test for numbers is the one on the fields. -/
theorem isNaN_eq (x : Float) : x.isNaN = isNotANumber x := by
  change x.toModel.unpack.isNaN = _
  cases hx : isFinite x with
  | true =>
    rw [unpack_eq hx, isNotANumber_of_isFinite hx]
    split <;> rfl
  | false =>
    rw [unpack_of_not_isFinite hx]
    cases isNotANumber x <;> rfl

theorem sign_of_isNegative {x : Float} (h : isNegative x = true) : sign x = .negative := if_pos h

theorem sign_of_not_isNegative {x : Float} (h : isNegative x = false) : sign x = .positive :=
  if_neg (by rw [h]; decide)

/-- Finite doubles compare as their values do. -/
theorem compare_unpack {x y : Float} (hx : isFinite x = true) (hy : isFinite y = true) :
    x.toModel.unpack.compare y.toModel.unpack = some (compare (value x) (value y)) := by
  have hcompare := Parts.compare_value (Parts.normal_of hx) (Parts.normal_of hy)
  have hpos : ∀ {z : Float}, (Parts.of z).mantissa ≠ 0 → 0 < (Parts.of z).value := fun {z} hz =>
    lt_of_le_of_ne (Parts.of z).value_nonneg fun h => hz (Parts.value_eq_zero_iff.1 h.symm)
  have hzero : ∀ {z : Float}, (Parts.of z).mantissa = 0 → value z = 0 := by
    intro z hz
    rw [value, Parts.value_eq_zero_iff.2 hz]
    simp
  rw [unpack_eq hx, unpack_eq hy]
  by_cases hmx : (Parts.of x).mantissa = 0
  · rw [dif_pos hmx, hzero hmx]
    by_cases hmy : (Parts.of y).mantissa = 0
    · rw [dif_pos hmy, hzero hmy, compare_eq_iff_eq.2 rfl]
      rfl
    · have hy0 := hpos hmy
      rw [dif_neg hmy]
      cases hsy : isNegative y
      · rw [sign_of_not_isNegative hsy, value, hsy, if_neg (by decide), compare_lt_iff_lt.2 hy0]
        rfl
      · rw [sign_of_isNegative hsy, value, hsy, if_pos rfl, compare_gt_iff_gt.2 (by linarith)]
        rfl
  · have hx0 := hpos hmx
    rw [dif_neg hmx]
    by_cases hmy : (Parts.of y).mantissa = 0
    · rw [dif_pos hmy, hzero hmy]
      cases hsx : isNegative x
      · rw [sign_of_not_isNegative hsx, value, hsx, if_neg (by decide), compare_gt_iff_gt.2 hx0]
        rfl
      · rw [sign_of_isNegative hsx, value, hsx, if_pos rfl, compare_lt_iff_lt.2 (by linarith)]
        rfl
    · have hy0 := hpos hmy
      rw [dif_neg hmy]
      cases hsx : isNegative x <;> cases hsy : isNegative y
      · rw [sign_of_not_isNegative hsx, sign_of_not_isNegative hsy, value, value, hsx, hsy,
          if_neg (by decide), if_neg (by decide), ← hcompare]
        rfl
      · rw [sign_of_not_isNegative hsx, sign_of_isNegative hsy, value, value, hsx, hsy,
          if_neg (by decide), if_pos rfl, compare_gt_iff_gt.2 (by linarith)]
        rfl
      · rw [sign_of_isNegative hsx, sign_of_not_isNegative hsy, value, value, hsx, hsy, if_pos rfl,
          if_neg (by decide), compare_lt_iff_lt.2 (by linarith)]
        rfl
      · have hswap : compare (-(Parts.of x).value) (-(Parts.of y).value) =
            (compare (Parts.of x).value (Parts.of y).value).swap := by
          rcases lt_trichotomy (Parts.of x).value (Parts.of y).value with h | h | h
          · rw [compare_lt_iff_lt.2 h, compare_gt_iff_gt.2 (by linarith)]
            rfl
          · rw [compare_eq_iff_eq.2 h, compare_eq_iff_eq.2 (by linarith)]
            rfl
          · rw [compare_gt_iff_gt.2 h, compare_lt_iff_lt.2 (by linarith)]
            rfl
        rw [sign_of_isNegative hsx, sign_of_isNegative hsy, value, value, hsx, hsy, if_pos rfl,
          if_pos rfl, hswap, ← hcompare]
        rfl

/-- An infinite double is further from zero than every finite one. -/
theorem value_lt_of_not_isFinite {x y : Float} (hx : isFinite x = false) (hy : isFinite y = true) :
    (Parts.of y).value < (Parts.of x).value := by
  have hlt := exponentField_lt x
  rw [isFinite, decide_eq_false_iff_not] at hx
  rcases Parts.of_cases x with ⟨hzero, -⟩ | ⟨k, hpos, hparts⟩
  · omega
  · rw [hparts]
    refine Parts.value_lt_of_exponent_lt (Parts.normal_of hy).mantissa_lt (Nat.le_add_right _ _) ?_
    have hle := (Parts.normal_of hy).exponent_le
    have hmin := minExponent_eq
    dsimp only
    omega

/-- A double that is a number compares with a finite one as their values do. -/
theorem compare_unpack_of_number {x y : Float} (hx : isNotANumber x = false)
    (hy : isFinite y = true) :
    x.toModel.unpack.compare y.toModel.unpack = some (compare (value x) (value y)) := by
  cases hfinite : isFinite x with
  | true => exact compare_unpack hfinite hy
  | false =>
    have hlt := value_lt_of_not_isFinite hfinite hy
    have hy0 := (Parts.of y).value_nonneg
    have hle : -(Parts.of y).value ≤ value y ∧ value y ≤ (Parts.of y).value := by
      unfold value
      split <;> constructor <;> linarith
    rw [unpack_of_not_isFinite hfinite, hx, if_neg (by decide)]
    have hcompare : ∀ s : Sign, (UnpackedFloat.infinity s).compare y.toModel.unpack =
        some (match s with | .positive => .gt | .negative => .lt) := by
      intro s
      rw [unpack_eq hy]
      split <;> cases s <;> rfl
    rw [hcompare]
    cases hs : isNegative x
    · rw [sign_of_not_isNegative hs, value, hs, if_neg (by decide),
        compare_gt_iff_gt.2 (by linarith)]
    · rw [sign_of_isNegative hs, value, hs, if_pos rfl, compare_lt_iff_lt.2 (by linarith)]

variable {x y : Float}

/-- A double that is a number is less than a finite one if its value is. -/
theorem lt_iff_value (hx : isNotANumber x = false) (hy : isFinite y = true) :
    x < y ↔ value x < value y := by
  rw [lt_iff, compare_unpack_of_number hx hy, Option.some.injEq, compare_lt_iff_lt]

theorem gt_iff_value (hx : isNotANumber x = false) (hy : isFinite y = true) :
    y < x ↔ value y < value x := by
  rw [lt_iff, ← swap_compare, compare_unpack_of_number hx hy, Option.map_some, Option.some.injEq,
    Ordering.swap_eq_lt, compare_gt_iff_gt]

theorem beq_iff_value (hx : isNotANumber x = false) (hy : isFinite y = true) :
    (x == y) = true ↔ value x = value y := by
  rw [beq_iff, compare_unpack_of_number hx hy, Option.some.injEq, compare_eq_iff_eq]

/-- A finite double is itself. -/
theorem beq_self (hx : isFinite x = true) : (x == x) = true :=
  (beq_iff_value (isNotANumber_of_isFinite hx) hx).2 rfl

/-- Nothing is the same as what is not a number. -/
theorem not_beq_of_isNotANumber (hy : isNotANumber y = true) : (x == y) = false := by
  have hfinite : isFinite y = false := by
    rw [Bool.eq_false_iff]
    intro h
    rw [isNotANumber_of_isFinite h] at hy
    cases hy
  rw [Bool.eq_false_iff, ne_eq, beq_iff, unpack_of_not_isFinite hfinite, if_pos hy]
  cases x.toModel.unpack <;> nofun

theorem le_iff_value (hx : isNotANumber x = false) (hy : isFinite y = true) :
    x ≤ y ↔ value x ≤ value y := by
  rw [le_iff, compare_unpack_of_number hx hy, ← not_lt, ← compare_gt_iff_gt]
  simp

/-! ## negation -/

/-- A finite double of the other sign has the other sign bit. -/
theorem toBits_neg {x : Float} (hx : isFinite x = true) :
    (-x).toBits.toBitVec = UnpackedFloat.packComponents Format.binary64 (-sign x)
      (unpackExponent x.toBits.toBitVec) (unpackMantissa x.toBits.toBitVec) := by
  have hfinite : @unpackExponent Format.binary64 x.toBits.toBitVec ≠ -1#11 := by
    intro h
    have hexp := congrArg BitVec.toNat h
    rw [toNat_unpackExponent] at hexp
    rw [isFinite, decide_eq_true_iff, exponentField_eq] at hx
    change _ = 0x7FF at hexp
    have : x.toBits.toBitVec.toNat = x.toBits.toNat := rfl
    omega
  have hunpack : UnpackedFloat.unpack Format.binary64
      (UnpackedFloat.packComponents Format.binary64 (-sign x)
      (unpackExponent x.toBits.toBitVec) (unpackMantissa x.toBits.toBitVec)) =
          x.toModel.unpack.neg := by
    change _ = (UnpackedFloat.unpack Format.binary64 x.toBits.toBitVec).neg
    unfold UnpackedFloat.unpack
    simp only [UnpackedFloat.unpackMantissa_packComponents,
      UnpackedFloat.unpackExponent_packComponents, UnpackedFloat.unpackSign_packComponents,
        Sign.ofBitVec_toBitVec, unpackSign_eq]
    rw [if_neg hfinite, if_neg hfinite]
    split
    · split <;> rfl
    · rfl
  change UnpackedFloat.pack Format.binary64 x.toModel.unpack.neg = _
  rw [← hunpack, Float.Model.UnpackedFloat.pack_unpack, if_neg]
  simp only [UnpackedFloat.isNaNBits, UnpackedFloat.unpackExponent_packComponents,
    decide_eq_true_eq, not_and]
  exact fun h => absurd h hfinite

/-- Negation turns the sign around and keeps the other fields. -/
theorem fields_neg {x : Float} (hx : isFinite x = true) :
    exponentField (-x) = exponentField x ∧ fractionField (-x) = fractionField x ∧
    isNegative (-x) = !isNegative x := by
  have hbits := toBits_neg hx
  refine ⟨?_, ?_, ?_⟩
  · have hexp := congrArg (fun b => (@unpackExponent Format.binary64 b).toNat) hbits
    simp only [UnpackedFloat.unpackExponent_packComponents, toNat_unpackExponent] at hexp
    rw [exponentField_eq, exponentField_eq]
    exact hexp
  · have hfrac := congrArg (fun b => (@unpackMantissa Format.binary64 b).toNat) hbits
    simp only [UnpackedFloat.unpackMantissa_packComponents, toNat_unpackMantissa] at hfrac
    rw [fractionField_eq, fractionField_eq]
    exact hfrac
  · have hsign := congrArg (fun b => Sign.ofBitVec (@unpackSign Format.binary64 b)) hbits
    simp only [UnpackedFloat.unpackSign_packComponents, Sign.ofBitVec_toBitVec, unpackSign_eq]
      at hsign
    unfold sign at hsign
    cases hneg : isNegative x <;> cases hneg' : isNegative (-x) <;> rw [hneg, hneg'] at hsign
      <;> cases hsign <;> rfl

theorem isFinite_neg {x : Float} (hx : isFinite x = true) : isFinite (-x) = true := by
  rwa [isFinite, (fields_neg hx).1]

theorem parts_neg {x : Float} (hx : isFinite x = true) : Parts.of (-x) = Parts.of x := by
  rw [Parts.of, Parts.of, (fields_neg hx).1, (fields_neg hx).2.1]

theorem isNegative_neg {x : Float} (hx : isFinite x = true) : isNegative (-x) = !isNegative x :=
  (fields_neg hx).2.2

/-! ## whole numbers -/

/-- Every natural number up to two to the fifty-third is the magnitude of a float. -/
theorem exists_parts_natCast {n : Nat} (hn : n ≤ 2 ^ 53) : ∃ p : Parts, p.Normal ∧ p.value = n := by
  have hmin := minExponent_eq
  rcases Nat.eq_zero_or_pos n with rfl | hpos
  · exact ⟨⟨0, minExponent⟩, ⟨by norm_num, le_rfl, by dsimp only; omega, .inr rfl⟩,
      by simp [Parts.value]⟩
  rcases Nat.lt_or_eq_of_le hn with hlt | rfl
  · have hlog : n.log2 ≤ 52 := by
      have := (Nat.log2_lt hpos.ne').2 hlt
      omega
    have hbits := log2_mul_two_pow hpos (52 - n.log2)
    have hne : n * 2 ^ (52 - n.log2) ≠ 0 := (Nat.mul_pos hpos (Nat.two_pow_pos _)).ne'
    rw [show n.log2 + (52 - n.log2) = 52 by omega, Nat.log2_eq_iff hne] at hbits
    refine ⟨⟨n * 2 ^ (52 - n.log2), -(52 - n.log2 : Nat)⟩, ⟨hbits.2, ?_, ?_, .inl hbits.1⟩, ?_⟩
    · dsimp only
      omega
    · dsimp only
      omega
    · rw [Parts.value, zpow_neg, zpow_natCast]
      push_cast
      rw [mul_inv_cancel_right₀ (by positivity)]
  · refine ⟨⟨2 ^ 52, 1⟩, ⟨by norm_num, by dsimp only; omega, by norm_num, .inl le_rfl⟩, ?_⟩
    rw [Parts.value, zpow_one]
    norm_num

/-- The whole numbers of fifty-three bits are doubles. -/
theorem ofInt_natCast {n : Nat} (hn : n ≤ 2 ^ 53) :
    isFinite (ofInt n) = true ∧ isNegative (ofInt n) = false ∧ (Parts.of (ofInt n)).value = n := by
  obtain ⟨p, hp, hvalue⟩ := exists_parts_natCast hn
  obtain ⟨y, -, hof, hsign, hfinite⟩ := Parts.toFloat?_eq hp
  have hcovers : (Parts.of y).Covers (n / (1 : Nat)) := by
    rw [hof, Nat.cast_one, div_one, ← hvalue]
    exact p.covers_value
  have hofInt : ofInt n = y := by
    change (nearest? n 1).getD (infinity false) = y
    rw [nearest?_of_covers hfinite hsign Nat.one_pos hcovers, Option.getD_some]
  rw [hofInt]
  exact ⟨hfinite, hsign, by rw [hof, hvalue]⟩

theorem Parts.value_ofNat (m k : Nat) : Parts.value ⟨m, .ofNat k⟩ = (m * 2 ^ k : Nat) := by
  simp [Parts.value]

theorem Parts.value_negSucc (m k : Nat) :
    Parts.value ⟨m, .negSucc k⟩ = m / (2 ^ (k + 1) : Nat) := by
  simp [Parts.value, zpow_negSucc, div_eq_mul_inv]

/-- The integer part is cut off at the point. -/
theorem integerPart_eq (x : Float) : integerPart x =
    if isNegative x then -(⌊(Parts.of x).value⌋₊ : Int) else ⌊(Parts.of x).value⌋₊ := by
  unfold integerPart
  dsimp only
  generalize Parts.of x = p
  obtain ⟨m, e⟩ := p
  cases e with
  | ofNat k =>
    rw [Parts.value_ofNat, Nat.floor_natCast]
    rfl
  | negSucc k =>
    rw [Parts.value_negSucc, Nat.floor_div_eq_div]
    rfl

/-! ## rounding -/

/-- A double with places after the point is finite. -/
theorem isFinite_of_exponent {x : Float} {k : Nat} (hk : (Parts.of x).exponent = .negSucc k) :
    isFinite x = true := by
  have hmin := minExponent_eq
  rw [isFinite, decide_eq_true_iff]
  rcases Parts.of_cases x with ⟨hzero, -⟩ | ⟨e, hpos, hparts⟩
  · omega
  · rw [hparts] at hk
    change minExponent + (e : Int) = _ at hk
    omega

/-- The nearest whole number, halfway the one further from zero; what is not finite is kept. -/
theorem value_round (x : Float) :
    isFinite (round x) = isFinite x ∧ isNotANumber (round x) = isNotANumber x ∧
      isNegative (round x) = isNegative x ∧ (Parts.of (round x)).value = ⌊(Parts.of x).value +
        1 / 2⌋₊ := by
  unfold round
  dsimp only
  cases he : (Parts.of x).exponent with
  | ofNat k =>
    refine ⟨rfl, rfl, rfl, ?_⟩
    have hvalue : (Parts.of x).value = ((Parts.of x).mantissa * 2 ^ k : Nat) := by
      rw [← Parts.value_ofNat, ← he]
    dsimp only
    rw [hvalue, Nat.cast_inj, eq_comm, Nat.floor_eq_iff (by positivity)]
    constructor <;> norm_num
  | negSucc k =>
    have hx := isFinite_of_exponent he
    have hlt := (Parts.normal_of hx).mantissa_lt
    have hvalue : (Parts.of x).value = (Parts.of x).mantissa / (2 ^ (k + 1) : Nat) := by
      rw [← Parts.value_negSucc, ← he]
    generalize (Parts.of x).mantissa = m at hlt hvalue ⊢
    have hsum : (m / (2 ^ (k + 1) : Nat) + 1 / 2 : ℚ) = (2 * m + 2 ^ (k + 1) : Nat) /
        (2 ^ (k + 2) : Nat) := by
      push_cast
      rw [pow_succ _ (k + 1)]
      field_simp
    have hn : (2 * m + 2 ^ (k + 1)) / 2 ^ (k + 2) ≤ 2 ^ 53 := by
      have hpow : 0 < 2 ^ (k + 1) := Nat.two_pow_pos _
      rw [Nat.pow_succ 2 (k + 1)]
      refine Nat.div_le_of_le_mul ?_
      nlinarith
    obtain ⟨hfinite, hsign, hround⟩ := ofInt_natCast hn
    dsimp only
    rw [hvalue, hsum, Nat.floor_div_eq_div, hx, isNotANumber_of_isFinite hx]
    simp only [Nat.pow_eq]
    by_cases hneg : isNegative x = true
    · have hfinite' := isFinite_neg hfinite
      rw [if_pos hneg]
      exact ⟨hfinite', isNotANumber_of_isFinite hfinite',
        by rw [isNegative_neg hfinite, hsign, hneg]; rfl, by rw [parts_neg hfinite, hround]⟩
    · rw [if_neg hneg]
      rw [Bool.not_eq_true] at hneg
      exact ⟨hfinite, isNotANumber_of_isFinite hfinite, hsign.trans hneg.symm, hround⟩

end EffectChain.Number
