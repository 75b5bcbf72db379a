import EffectChain.Proofs.Text.Quoted

/-!
# EffectChain.Proofs.Text.Utf8

Characters are read back from their bytes, whatever stands behind them
(`decode_encode_append`).

An ASCII byte is a character of its own, so that a text that is cut behind one is cut
between characters (`exists_of_encode_eq`).
-/

namespace EffectChain.Utf8

theorem encode_append (cs ds : List Char) : encode (cs ++ ds) = encode cs ++ encode ds :=
  List.flatMap_append

theorem encode_cons (c : Char) (cs : List Char) :
    encode (c :: cs) = String.utf8EncodeChar c ++ encode cs := rfl

/-- Every character has a byte. -/
theorem length_le_length_encode (cs : List Char) : cs.length ≤ (encode cs).length := by
  induction cs with
  | nil => exact Nat.le_refl 0
  | cons c cs ih =>
      have hpos : 0 < (String.utf8EncodeChar c).length :=
        List.length_pos_iff.2 String.utf8EncodeChar_ne_nil
      rw [encode_cons, List.length_append, List.length_cons]
      omega

/-! ## one character -/

theorem toNat_ofNat_byte {n : Nat} (h : n < 256) : (UInt8.ofNat n).toNat = n := by
  rw [UInt8.toNat_ofNat']
  exact Nat.mod_eq_of_lt h

/-- A byte within the bounds is the second of a character. -/
theorem secondFits_of_bounds {a b : UInt8} (hlow : 0x80 ≤ b.toNat) (hhigh : b.toNat ≤ 0xBF)
    (hE0 : a.toNat = 0xE0 → 0xA0 ≤ b.toNat) (hED : a.toNat = 0xED → b.toNat ≤ 0x9F)
    (hF0 : a.toNat = 0xF0 → 0x90 ≤ b.toNat) (hF4 : a.toNat = 0xF4 → b.toNat ≤ 0x8F) :
    secondFits a b = true := by
  unfold secondFits isTail
  simp only [← UInt8.toNat_inj, UInt8.le_iff_toNat_le, UInt8.reduceToNat]
  grind

/-- The numbers of a character's bytes, by its length. -/
theorem utf8EncodeChar_cases (c : Char) :
    (c.toNat < 0x80 ∧ String.utf8EncodeChar c = [UInt8.ofNat c.toNat]) ∨
      (0x80 ≤ c.toNat ∧ c.toNat < 0x800 ∧ ∃ a b : UInt8, String.utf8EncodeChar c = [a, b] ∧
        a.toNat = 0xC0 + c.toNat / 64 ∧ b.toNat = 0x80 + c.toNat % 64) ∨
      (0x800 ≤ c.toNat ∧ c.toNat < 0x10000 ∧ ∃ a b d : UInt8, String.utf8EncodeChar c = [a, b, d] ∧
        a.toNat = 0xE0 + c.toNat / 4096 ∧ b.toNat = 0x80 + c.toNat / 64 % 64 ∧
        d.toNat = 0x80 + c.toNat % 64) ∨
      (0x10000 ≤ c.toNat ∧ ∃ a b d e : UInt8, String.utf8EncodeChar c = [a, b, d, e] ∧
        a.toNat = 0xF0 + c.toNat / 262144 ∧ b.toNat = 0x80 + c.toNat / 4096 % 64 ∧
          d.toNat = 0x80 + c.toNat / 64 % 64 ∧ e.toNat = 0x80 + c.toNat % 64) := by
  have hvalid : c.toNat < 0xD800 ∨ 0xDFFF < c.toNat ∧ c.toNat < 0x110000 := c.valid
  have hencode : String.utf8EncodeChar c = _ := rfl
  unfold String.utf8EncodeChar at hencode
  change _ = if c.toNat ≤ 127 then _ else if c.toNat ≤ 2047 then _ else if c.toNat ≤ 65535 then _
    else _ at hencode
  by_cases h₁ : c.toNat ≤ 127
  · rw [if_pos h₁] at hencode
    exact .inl ⟨by omega, hencode⟩
  · rw [if_neg h₁] at hencode
    refine .inr ?_
    by_cases h₂ : c.toNat ≤ 2047
    · rw [if_pos h₂] at hencode
      refine .inl ⟨by omega, by omega, _, _, hencode, ?_, ?_⟩
      · exact (toNat_ofNat_byte (by omega)).trans (by change c.toNat / 64 % 32 + 192 = _; omega)
      · exact (toNat_ofNat_byte (by omega)).trans (Nat.add_comm ..)
    · rw [if_neg h₂] at hencode
      refine .inr ?_
      by_cases h₃ : c.toNat ≤ 65535
      · rw [if_pos h₃] at hencode
        refine .inl ⟨by omega, by omega, _, _, _, hencode, ?_, ?_, ?_⟩
        · exact (toNat_ofNat_byte (by omega)).trans (by change c.toNat / 4096 % 16 + 224 = _; omega)
        · exact (toNat_ofNat_byte (by omega)).trans (Nat.add_comm ..)
        · exact (toNat_ofNat_byte (by omega)).trans (Nat.add_comm ..)
      · rw [if_neg h₃] at hencode
        refine .inr ⟨by omega, _, _, _, _, hencode, ?_, ?_, ?_, ?_⟩
        · exact (toNat_ofNat_byte (by omega)).trans
            (by change c.toNat / 262144 % 8 + 240 = _; omega)
        · exact (toNat_ofNat_byte (by omega)).trans (Nat.add_comm ..)
        · exact (toNat_ofNat_byte (by omega)).trans (Nat.add_comm ..)
        · exact (toNat_ofNat_byte (by omega)).trans (Nat.add_comm ..)

/-- A character is read back from its bytes. -/
theorem glyphAt_utf8EncodeChar (c : Char) : ∃ a more, String.utf8EncodeChar c = a :: more ∧
    ∀ rest, glyphAt a (more ++ rest) = .char c (a :: more) := by
  have hvalid : c.toNat < 0xD800 ∨ 0xDFFF < c.toNat ∧ c.toNat < 0x110000 := c.valid
  rcases utf8EncodeChar_cases c with ⟨h, hc⟩ | ⟨hlow, hhigh, a, b, hc, ha, hb⟩ |
      ⟨hlow, hhigh, a, b, d, hc, ha, hb, hd⟩ | ⟨hlow, a, b, d, e, hc, ha, hb, hd, he⟩
  · have ha := toNat_ofNat_byte (show c.toNat < 256 by omega)
    refine ⟨_, [], hc, fun rest => ?_⟩
    have hfirst : UInt8.ofNat c.toNat < 0x80 := by
      rw [UInt8.lt_iff_toNat_lt, ha]
      exact h
    unfold glyphAt
    rw [if_pos hfirst, ha, Char.ofNat_toNat]
  · refine ⟨a, [b], hc, fun rest => ?_⟩
    have htail : isTail b = true := (isTail_iff b).2 (by omega)
    have hchar : a.toNat % 32 * 64 + tailBits b = c.toNat := by rw [tailBits]; omega
    simp only [glyphAt, UInt8.lt_iff_toNat_lt, UInt8.le_iff_toNat_le, UInt8.reduceToNat,
      Bool.and_eq_true, decide_eq_true_eq]
    rw [if_neg (by omega), if_pos (by omega)]
    simp [htail, hchar]
  · refine ⟨a, [b, d], hc, fun rest => ?_⟩
    have hsecond : secondFits a b = true :=
      secondFits_of_bounds (by omega) (by omega) (by omega) (by omega)
      (by omega) (by omega)
    have htail : isTail d = true := (isTail_iff d).2 (by omega)
    have hchar : a.toNat % 16 * 4096 + tailBits b * 64 + tailBits d = c.toNat := by
      rw [tailBits, tailBits]; omega
    simp only [glyphAt, UInt8.lt_iff_toNat_lt, UInt8.le_iff_toNat_le, UInt8.reduceToNat,
      Bool.and_eq_true, decide_eq_true_eq]
    rw [if_neg (by omega), if_neg (by omega), if_pos (by omega)]
    simp [hsecond, htail, hchar]
  · refine ⟨a, [b, d, e], hc, fun rest => ?_⟩
    have hsecond : secondFits a b = true :=
      secondFits_of_bounds (by omega) (by omega) (by omega) (by omega)
      (by omega) (by omega)
    have htaild : isTail d = true := (isTail_iff d).2 (by omega)
    have htaile : isTail e = true := (isTail_iff e).2 (by omega)
    have hchar : a.toNat % 8 * 262144 + tailBits b * 4096 + tailBits d * 64 + tailBits e =
        c.toNat := by
      rw [tailBits, tailBits, tailBits]; omega
    simp only [glyphAt, UInt8.lt_iff_toNat_lt, UInt8.le_iff_toNat_le, UInt8.reduceToNat,
      Bool.and_eq_true, decide_eq_true_eq]
    rw [if_neg (by omega), if_neg (by omega), if_neg (by omega), if_pos (by omega)]
    simp [hsecond, htaild, htaile, hchar]

/-! ## texts -/

theorem decode_cons (a : UInt8) (rest : Bytes) : decode (a :: rest) =
    (glyphAt a rest).toChar :: decode ((a :: rest).drop (glyphAt a rest).bytes.length) := by
  rw [decode, glyphs_cons, List.map_cons]
  rfl

/-- Characters are read back from their bytes, whatever stands behind them. -/
theorem decode_encode_append (cs : List Char) (rest : Bytes) :
    decode (encode cs ++ rest) = cs ++ decode rest := by
  induction cs with
  | nil => rfl
  | cons c cs ih =>
      obtain ⟨a, more, hbytes, hglyph⟩ := glyphAt_utf8EncodeChar c
      rw [encode_cons, hbytes, List.append_assoc, List.cons_append, decode_cons, hglyph]
      simp only [Glyph.toChar, Glyph.bytes, List.length_cons, List.drop_succ_cons,
        List.drop_left, ih, List.cons_append]

theorem decode_encode (cs : List Char) : decode (encode cs) = cs := by
  have h := decode_encode_append cs []
  rw [List.append_nil] at h
  rw [h, decode, glyphs_nil, List.map_nil, List.append_nil]

/-- An ASCII byte among those of a character is all of them. -/
theorem utf8EncodeChar_of_ascii {c : Char} {b : UInt8} (hb : b.toNat < 0x80)
    (h : b ∈ String.utf8EncodeChar c) :
    String.utf8EncodeChar c = [b] := by
  rcases utf8EncodeChar_cases c with ⟨-, hc⟩ | ⟨hlow, hhigh, a, b', hc, ha, hb'⟩ |
      ⟨hlow, hhigh, a, b', d, hc, ha, hb', hd⟩ | ⟨hlow, a, b', d, e, hc, ha, hb', hd, he⟩
  · rw [hc, List.mem_singleton] at h
    rw [hc, h]
  all_goals
    rw [hc] at h
    simp only [List.mem_cons, List.not_mem_nil, or_false] at h
    rcases h with rfl | rfl | rfl | rfl <;> omega

/-- A text that is cut behind an ASCII byte is cut between characters. -/
theorem exists_of_encode_eq {cs : List Char} {before after : Bytes} {b : UInt8}
    (hb : b.toNat < 0x80) (h : encode cs = before ++ b :: after) :
    ∃ pre post, cs = pre ++ post ∧ encode pre = before ++ [b] := by
  induction cs generalizing before with
  | nil => simp [encode] at h
  | cons c cs ih =>
      rw [encode_cons] at h
      rcases List.append_eq_append_iff.1 h with ⟨as, rfl, hrest⟩ | ⟨bs, hc, hrest⟩
      · obtain ⟨pre, post, rfl, hpre⟩ := ih hrest
        exact ⟨c :: pre, post, rfl, by rw [encode_cons, hpre, List.append_assoc]⟩
      · cases bs with
        | nil =>
            have hnext : encode cs = [] ++ b :: after := hrest.symm
            obtain ⟨pre, post, rfl, hpre⟩ := ih hnext
            exact ⟨c :: pre, post, rfl, by rw [encode_cons, hpre, hc, List.append_nil]; rfl⟩
        | cons b' bs =>
            obtain ⟨rfl, -⟩ := List.cons.inj hrest
            have hsingle := utf8EncodeChar_of_ascii (c := c) hb (by simp [hc])
            obtain ⟨rfl, -⟩ : before = [] ∧ bs = [] := by
              rw [hc] at hsingle
              cases before with
              | nil => exact ⟨rfl, by simpa using hsingle⟩
              | cons x xs => simp at hsingle
            exact ⟨[c], cs, rfl, by rw [encode_cons, hsingle]; rfl⟩

end EffectChain.Utf8
