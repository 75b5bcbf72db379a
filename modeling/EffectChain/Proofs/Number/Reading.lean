import EffectChain.Proofs.Number.Value

/-!
# EffectChain.Proofs.Number.Reading

The text of a double reads back (`read?_positional`): its digits stand for a rational that
rounds to the double, and neither the guards against large powers of ten nor the other forms
a number has get in the way.
-/

namespace EffectChain.Number

/-! ## powers of ten -/

section

variable {p : Parts} {n k : Nat}

/-- What a float covers lies below the largest power of two. -/
theorem Parts.Covers.lt_two_pow (hp : p.Normal) {q : ℚ} (h : p.Covers q) : q < 2 ^ 1024 := by
  have hpos : (0 : ℚ) < 2 ^ p.exponent := by positivity
  have hunits : q < 2 ^ (53 : Nat) * 2 ^ p.exponent := by
    have hlt := h.lt hp
    rw [div_lt_iff₀ hpos] at hlt
    nlinarith
  calc q < 2 ^ (53 : Nat) * 2 ^ p.exponent := hunits
    _ = 2 ^ (53 + p.exponent) := by rw [zpow_add₀ (by norm_num)]; norm_num
    _ ≤ 2 ^ (1024 : Int) := zpow_le_zpow_right₀ (by norm_num) (by have := hp.exponent_le; omega)
    _ = 2 ^ 1024 := zpow_natCast 2 1024

/-- What a float with a mantissa covers lies above half the smallest. -/
theorem Parts.Covers.two_pow_le (hp : p.Normal) (hm : 0 < p.mantissa) {q : ℚ} (h : p.Covers q) :
    2 ^ (-1075 : Int) ≤ q := by
  have hpos : (0 : ℚ) < 2 ^ p.exponent := by positivity
  obtain ⟨-, hreach⟩ := p.reach_bounds
  have hone : (1 : ℚ) ≤ p.mantissa := by exact_mod_cast hm
  have hunits : (1 / 2 : ℚ) * 2 ^ p.exponent ≤ q := by
    have hlow := h.low
    rw [le_div_iff₀ hpos] at hlow
    nlinarith
  have hmin := minExponent_eq
  calc (2 : ℚ) ^ (-1075 : Int) ≤ 2 ^ (-1 + p.exponent) :=
        zpow_le_zpow_right₀ (by norm_num) (by have := hp.exponent_ge; omega)
    _ = 1 / 2 * 2 ^ p.exponent := by rw [zpow_add₀ (by norm_num)]; norm_num
    _ ≤ q := hunits

/-- A decimal fraction near a double is neither too large nor too small for the powers of ten. -/
theorem ofDecimal?_of_covers (hp : p.Normal) (h : p.Covers (n / 10 ^ k))
    (hm : 0 < p.mantissa ∨ n = 0) :
    ofDecimal? n (-(k : Int)) = nearest? n (10 ^ k) := by
  rcases Nat.eq_zero_or_pos n with rfl | hn
  · simp [ofDecimal?, nearest?]
  have htop := h.lt_two_pow hp
  have hbottom := h.two_pow_le hp (hm.resolve_right (by omega))
  have hten : (0 : ℚ) < 10 ^ k := by positivity
  rw [div_lt_iff₀ hten] at htop
  rw [le_div_iff₀ hten] at hbottom
  have hlog : ((2 ^ n.log2 : Nat) : ℚ) ≤ n := Nat.cast_le.2 (Nat.log2_self_le hn.ne')
  have hlog' : (n : ℚ) < ((2 ^ (n.log2 + 1) : Nat) : ℚ) := Nat.cast_lt.2 Nat.lt_log2_self
  push_cast at hlog hlog'
  have hlarge : ¬ (-(k : Int) + (n.log2 / 4 : Nat) > 400) := by
    intro hgt
    have hbits : 1024 + 4 * k ≤ n.log2 := by omega
    have hsixteen : (10 : ℚ) ^ k ≤ 2 ^ (4 * k) := by
      rw [pow_mul]
      exact pow_le_pow_left₀ (by norm_num) (by norm_num) k
    have hpow : (2 : ℚ) ^ 1024 * 10 ^ k ≤ 2 ^ n.log2 := by
      calc (2 : ℚ) ^ 1024 * 10 ^ k ≤ 2 ^ 1024 * 2 ^ (4 * k) := by gcongr
        _ = 2 ^ (1024 + 4 * k) := (pow_add 2 1024 (4 * k)).symm
        _ ≤ 2 ^ n.log2 := pow_le_pow_right₀ (by norm_num) hbits
    exact absurd (htop.trans_le hpow) (not_lt.2 hlog)
  have hsmall : ¬ (-(k : Int) + (n.log2 / 3 : Nat) + 1 < -400) := by
    intro hlt
    have hbits : n.log2 + 1 + 1075 ≤ 3 * k := by omega
    have height : (2 : ℚ) ^ (3 * k) ≤ 10 ^ k := by
      rw [pow_mul]
      exact pow_le_pow_left₀ (by norm_num) (by norm_num) k
    have hpow : (2 : ℚ) ^ (n.log2 + 1) ≤ 2 ^ (-1075 : Int) * 10 ^ k := by
      calc (2 : ℚ) ^ (n.log2 + 1) ≤ 2 ^ (-1075 + (3 * k : Nat) : Int) := by
            rw [← zpow_natCast]
            exact zpow_le_zpow_right₀ (by norm_num) (by push_cast; omega)
        _ = 2 ^ (-1075 : Int) * 2 ^ (3 * k) := by rw [zpow_add₀ (by norm_num), zpow_natCast]
        _ ≤ 2 ^ (-1075 : Int) * 10 ^ k := by gcongr
    exact absurd (hlog'.trans_le (hpow.trans hbottom)) (lt_irrefl _)
  unfold ofDecimal?
  rw [if_neg hn.ne']
  dsimp only
  rw [if_neg hlarge, if_neg hsmall]
  cases k with
  | zero => exact congrArg (nearest? · 1) (Nat.mul_one n)
  | succ k => rfl

end

/-! ## digits around a point -/

theorem isDigit_digitChar' {d : Nat} (h : d < 10) :
    isDigit (digitChar d) = true ∧ digitValue (digitChar d) = d ∧ lowerLetter (digitChar d) =
      digitChar d := by
  revert d
  decide

theorem map_digitValue {ds : List Nat} (h : ∀ d ∈ ds, d < 10) :
    (ds.map digitChar).map digitValue = ds := by
  rw [List.map_map]
  exact (List.map_congr_left fun d hd => (isDigit_digitChar' (h d hd)).2.1).trans (List.map_id ds)

/-- A run of digits is split off whole, up to what is neither a digit nor an underscore. -/
theorem split_digits {ds : List Nat} (h : ∀ d ∈ ds, d < 10) (rest : List Char)
    (hrest : ∀ c ∈ rest.head?, isDigit c = false ∧ c ≠ '_') :
    (ds.map digitChar ++ rest).takeWhile (fun c => isDigit c || c = '_') = ds.map digitChar ∧
      (ds.map digitChar ++ rest).dropWhile (fun c => isDigit c || c = '_') = rest ∧
      (ds.map digitChar).filter isDigit = ds.map digitChar := by
  have hall : ∀ c ∈ ds.map digitChar, isDigit c = true := by
    intro c hc
    obtain ⟨d, hd, rfl⟩ := List.mem_map.1 hc
    exact (isDigit_digitChar' (h d hd)).1
  have hinside : ∀ c ∈ ds.map digitChar, (isDigit c || decide (c = '_')) = true := fun c hc => by
    rw [hall c hc, Bool.true_or]
  have hend : rest.takeWhile (fun c => isDigit c || c = '_') = [] ∧
      rest.dropWhile (fun c => isDigit c || c = '_') = rest := by
    cases rest with
    | nil => exact ⟨rfl, rfl⟩
    | cons c rest =>
      obtain ⟨hc, hunder⟩ := hrest c rfl
      simp [hc, hunder]
  refine ⟨?_, ?_, List.filter_eq_self.2 hall⟩
  · rw [List.takeWhile_append_of_pos hinside, hend.1, List.append_nil]
  · rw [List.dropWhile_append_of_pos hinside, hend.2]

/-- Digits with an optional fraction, as they are read. -/
theorem readDecimal_eq {as bs : List Nat} {cs : List Char} (has : as ≠ []) (ha : ∀ d ∈ as, d < 10)
    (hb : ∀ d ∈ bs, d < 10)
    (hcs : cs = as.map digitChar ∧ bs = [] ∨ cs = as.map digitChar ++ '.' :: bs.map digitChar) :
    readUnsigned.readDecimal cs =
      .ok (ofDecimal? (digitsValue 10 (as ++ bs)) (-(bs.length : Int))) := by
  have hsplit : splitMantissa isDigit cs = (⟨as.map digitChar, bs.map digitChar⟩, []) := by
    unfold splitMantissa
    rcases hcs with ⟨rfl, rfl⟩ | rfl
    · obtain ⟨htake, hdrop, hfilter⟩ := split_digits ha [] (by simp)
      rw [List.append_nil] at htake hdrop
      simp only [htake, hdrop, hfilter, List.map_nil]
    · obtain ⟨htake, hdrop, hfilter⟩ := split_digits ha ('.' :: bs.map digitChar) (by simp; decide)
      obtain ⟨htake', hdrop', hfilter'⟩ := split_digits hb [] (by simp)
      rw [List.append_nil] at htake' hdrop'
      simp only [htake, hdrop, hfilter, htake', hdrop', hfilter']
  have hunder : cs.contains '_' = false := by
    have hne : ∀ {ds : List Nat}, (∀ d ∈ ds, d < 10) → '_' ∉ ds.map digitChar := by
      intro ds h hmem
      obtain ⟨d, hd, heq⟩ := List.mem_map.1 hmem
      have hdigit := (isDigit_digitChar' (h d hd)).1
      rw [heq] at hdigit
      cases hdigit
    rw [List.contains_eq_mem, decide_eq_false_iff_not]
    rcases hcs with ⟨rfl, rfl⟩ | rfl
    · exact hne ha
    · rw [List.mem_append, List.mem_cons, not_or, not_or]
      exact ⟨hne ha, by decide, hne hb⟩
  unfold readUnsigned.readDecimal
  rw [hsplit]
  dsimp only
  rw [if_neg (by simp [has])]
  simp only [splitExponent, hunder, Bool.false_and, Bool.false_eq_true, if_false, ← List.map_append,
    map_digitValue (List.forall_mem_append.2 ⟨ha, hb⟩), Option.getD_none, List.length_map,
      Int.zero_sub]

/-- A number that is not hexadecimal is read as a decimal. -/
theorem readUnsigned_eq {cs : List Char} (h : ∀ c ∈ cs.tail.head?, lowerLetter c ≠ 'x') :
    readUnsigned cs = readUnsigned.readDecimal cs := by
  unfold readUnsigned
  split
  · rename_i x rest
    rw [if_neg (h x rfl)]
  · rfl

/-- A text that begins with a digit has no sign and is no word. -/
theorem read?_eq {s : String} {d : Nat} {rest : List Char} {x : Float}
    (hs : s.toList = digitChar d :: rest) (hd : d < 10)
    (hx : readUnsigned s.toList = .ok (some x)) : read? s = some x := by
  have hfirst : digitChar d ≠ '-' ∧ digitChar d ≠ '+' ∧ digitChar d ≠ 'i' ∧ digitChar d ≠ 'n' := by
    clear hs
    revert d
    decide
  have hword : ∀ w : String, (∀ c ∈ w.toList.head?, c = 'i' ∨ c = 'n') →
      String.ofList (s.toList.map lowerLetter) ≠ w := by
    rintro w hw rfl
    rw [String.toList_ofList, hs, List.map_cons, (isDigit_digitChar' hd).2.2] at hw
    rcases hw _ rfl with h | h
    · exact hfirst.2.2.1 h
    · exact hfirst.2.2.2 h
  have hinf : ¬ ((decide (String.ofList (s.toList.map lowerLetter) = "inf") ||
      decide (String.ofList (s.toList.map lowerLetter) = "infinity")) = true) := by
    simp only [Bool.or_eq_true, decide_eq_true_eq, not_or]
    exact ⟨hword "inf" (by simp), hword "infinity" (by simp)⟩
  have hnan : ¬ ((decide (String.ofList (s.toList.map lowerLetter) = "nan") &&
      decide (s.toList.length = s.toList.length)) = true) := by
    simp only [Bool.and_eq_true, decide_eq_true_eq, not_and]
    exact fun h => absurd h (hword "nan" (by simp))
  unfold read? read
  dsimp only
  split
  · rename_i heq
    exact absurd (List.cons.inj (hs.symm.trans heq)).1 hfirst.1
  · rename_i heq
    exact absurd (List.cons.inj (hs.symm.trans heq)).1 hfirst.2.1
  · dsimp only
    rw [if_neg hinf, if_neg hnan, hx]
    rfl

/-- What is written for a size is read as the double of that size. -/
theorem read?_positional {x : Float} (hx : isFinite x = true) (hsign : isNegative x = false) :
    read? (positional (shortest (Parts.of x))) = some x := by
  have hdigits := shortest_digits_lt (Parts.of x)
  have hcovers := covers_shortest (Parts.normal_of hx)
  have hzero : 0 < (Parts.of x).mantissa ∨ (shortest (Parts.of x)).value = 0 := by
    rcases Nat.eq_zero_or_pos (Parts.of x).mantissa with hm | hm
    · refine .inr ?_
      rw [shortest, if_pos hm]
      simp [Digits.value, digitsValue]
    · exact .inl hm
  obtain ⟨as, bs, htext, has, ha, hb, hvalue⟩ : ∃ as bs : List Nat,
      ((positional (shortest (Parts.of x))).toList = as.map digitChar ∧ bs = [] ∨
        (positional (shortest (Parts.of x))).toList = as.map digitChar ++ '.' :: bs.map digitChar) ∧
      as ≠ [] ∧ (∀ d ∈ as, d < 10) ∧ (∀ d ∈ bs, d < 10) ∧
        (digitsValue 10 (as ++ bs) : ℚ) / 10 ^ bs.length = (shortest (Parts.of x)).value := by
    obtain ⟨as, htext, has, ha, hvalue⟩ | ⟨as, bs, htext, has, -, ha, hb, hvalue⟩ :=
      positional_shape _ hdigits
    · exact ⟨as, [], .inl ⟨htext, rfl⟩, has, ha, by simp, by simpa using hvalue⟩
    · exact ⟨as, bs, .inr htext, has, ha, hb, hvalue⟩
  rw [← hvalue] at hcovers hzero
  have hten : ((10 ^ bs.length : Nat) : ℚ) = 10 ^ bs.length := by push_cast; rfl
  have hnearest : ofDecimal? (digitsValue 10 (as ++ bs)) (-(bs.length : Int)) = some x := by
    rw [ofDecimal?_of_covers (Parts.normal_of hx) hcovers (hzero.imp_right fun h =>
      by simpa using h)]
    exact nearest?_of_covers hx hsign (by positivity) (by rwa [hten])
  have hread := readDecimal_eq has ha hb htext
  rw [hnearest] at hread
  obtain ⟨d, as, rfl⟩ := List.exists_cons_of_ne_nil has
  obtain ⟨rest, hs, htail⟩ : ∃ rest, (positional (shortest (Parts.of x))).toList =
      digitChar d :: rest ∧
      ∀ c ∈ rest.head?, lowerLetter c ≠ 'x' := by
    have hdigit : ∀ c ∈ as.map digitChar, lowerLetter c ≠ 'x' := by
      intro c hc
      obtain ⟨e, he, rfl⟩ := List.mem_map.1 hc
      have hlt := ha e (List.mem_cons_of_mem d he)
      clear hc he htext ha hread hvalue hcovers hzero hnearest
      revert e
      decide
    rcases htext with ⟨htext, -⟩ | htext
    · exact ⟨_, htext, fun c hc => hdigit c (List.mem_of_mem_head? hc)⟩
    · refine ⟨_, htext, fun c hc => ?_⟩
      cases as with
      | nil =>
        obtain rfl : '.' = c := Option.some.inj hc
        decide
      | cons e as => exact hdigit c (List.mem_of_mem_head? hc)
  refine read?_eq hs (ha d (by simp)) ?_
  rw [readUnsigned_eq (by rw [hs]; exact htail), hread]

end EffectChain.Number
