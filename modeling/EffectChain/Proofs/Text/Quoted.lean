import EffectChain.Number.Read
import EffectChain.Text.Quoted
import Mathlib.Tactic.Ring

/-!
# EffectChain.Proofs.Text.Quoted

Quoted text says where it ends and what it quotes: whatever stands after two quoted
texts, if the whole is the same, the quoted bytes are (`quoteBytes_append`).

`unescape?` reads one glyph back from its escape (`unescape?_escapeGlyph`), as the number
of a character or of a stray byte, and a glyph's number tells its bytes
(`Glyph.bytes_eq_of_code`).
-/

namespace EffectChain

/-! ## the bytes of a character -/

namespace Utf8

/-- The numbers of the bytes of a character. -/
def byteNumbers (n : Nat) : List Nat :=
  if n < 0x80 then [n]
  else if n < 0x800 then [0xC0 + n / 64, 0x80 + n % 64]
  else if n < 0x10000 then [0xE0 + n / 4096, 0x80 + n / 64 % 64, 0x80 + n % 64]
  else [0xF0 + n / 262144, 0x80 + n / 4096 % 64, 0x80 + n / 64 % 64, 0x80 + n % 64]

/-- A number that stands for a character is given back by it. -/
theorem toNat_ofNat_of_lt {n : Nat} (h : n < 0xD800 ∨ 0xDFFF < n ∧ n < 0x110000) :
    (Char.ofNat n).toNat = n := by
  have hvalid : n.isValidChar := h
  rw [Char.ofNat, dif_pos hvalid]
  rfl

theorem isTail_iff (b : UInt8) : isTail b = true ↔ 0x80 ≤ b.toNat ∧ b.toNat ≤ 0xBF := by
  rw [isTail, Bool.and_eq_true, decide_eq_true_iff, decide_eq_true_iff, UInt8.le_iff_toNat_le,
    UInt8.le_iff_toNat_le]
  rfl

/-- The second byte of a character is a tail byte, with narrower bounds for some first bytes. -/
theorem secondFits_bounds {a b : UInt8} (h : secondFits a b = true) :
    0x80 ≤ b.toNat ∧ b.toNat ≤ 0xBF ∧ (a.toNat = 0xE0 → 0xA0 ≤ b.toNat) ∧
      (a.toNat = 0xED → b.toNat ≤ 0x9F) ∧ (a.toNat = 0xF0 → 0x90 ≤ b.toNat) ∧
      (a.toNat = 0xF4 → b.toNat ≤ 0x8F) := by
  have hbetween : ∀ c d : UInt8, (decide (c ≤ b) && decide (b ≤ d)) = true →
      c.toNat ≤ b.toNat ∧ b.toNat ≤ d.toNat := by
    intro c d h
    rwa [Bool.and_eq_true, decide_eq_true_iff, decide_eq_true_iff, UInt8.le_iff_toNat_le,
      UInt8.le_iff_toNat_le] at h
  unfold secondFits isTail at h
  simp only [← UInt8.toNat_inj, UInt8.reduceToNat] at h
  repeat' split at h
  all_goals
    have := hbetween _ _ h
    simp only [UInt8.reduceToNat] at this
    omega

/-- A character is read from its own bytes only. -/
theorem byteNumbers_of_glyphAt {a : UInt8} {rest raw : Bytes} {c : Char}
    (h : glyphAt a rest = .char c raw) : raw.map UInt8.toNat = byteNumbers c.toNat := by
  unfold glyphAt at h
  split at h
  case isTrue ha =>
    have ha' : a.toNat < 0x80 := ha
    obtain ⟨rfl, rfl⟩ := Glyph.char.inj h
    rw [byteNumbers, toNat_ofNat_of_lt (.inl (by omega)), if_pos ha']
    rfl
  case isFalse =>
    split at h
    case isTrue ha =>
      simp only [Bool.and_eq_true, decide_eq_true_iff, UInt8.le_iff_toNat_le, UInt8.reduceToNat]
        at ha
      split at h
      · split at h
        case isTrue hb =>
          rw [isTail_iff] at hb
          obtain ⟨rfl, rfl⟩ := Glyph.char.inj h
          rw [tailBits, toNat_ofNat_of_lt (.inl (by omega)), byteNumbers, if_neg (by omega),
            if_pos (by omega)]
          simp only [List.map_cons, List.map_nil, List.cons.injEq, and_true]
          omega
        case isFalse => cases h
      · cases h
    case isFalse =>
      split at h
      case isTrue ha =>
        simp only [Bool.and_eq_true, decide_eq_true_iff, UInt8.le_iff_toNat_le, UInt8.reduceToNat]
          at ha
        split at h
        · split at h
          case isTrue hb =>
            rw [Bool.and_eq_true, isTail_iff] at hb
            have hsecond := secondFits_bounds hb.1
            obtain ⟨rfl, rfl⟩ := Glyph.char.inj h
            rw [tailBits, tailBits, toNat_ofNat_of_lt (by omega), byteNumbers, if_neg (by omega),
              if_neg (by omega), if_pos (by omega)]
            simp only [List.map_cons, List.map_nil, List.cons.injEq, and_true]
            omega
          case isFalse => cases h
        · cases h
      case isFalse =>
        split at h
        case isTrue ha =>
          simp only [Bool.and_eq_true, decide_eq_true_iff, UInt8.le_iff_toNat_le, UInt8.reduceToNat]
            at ha
          split at h
          · split at h
            case isTrue hb =>
              rw [Bool.and_eq_true, Bool.and_eq_true, isTail_iff, isTail_iff] at hb
              have hsecond := secondFits_bounds hb.1.1
              obtain ⟨rfl, rfl⟩ := Glyph.char.inj h
              rw [tailBits, tailBits, tailBits, toNat_ofNat_of_lt (by omega), byteNumbers,
                if_neg (by omega), if_neg (by omega), if_neg (by omega)]
              simp only [List.map_cons, List.map_nil, List.cons.injEq, and_true]
              omega
            case isFalse => cases h
          · cases h
        case isFalse => cases h

/-- Stray bytes are no single ones. -/
theorem le_of_glyphAt_stray {a b : UInt8} {rest : Bytes} (h : glyphAt a rest = .stray b) :
    0x80 ≤ b.toNat := by
  have hfirst : ¬ a < 0x80 := by
    intro ha
    unfold glyphAt at h
    rw [if_pos ha] at h
    cases h
  obtain ⟨more, hbytes, -⟩ := exists_bytes_glyphAt a rest
  rw [h] at hbytes
  obtain rfl : b = a := (List.cons.inj hbytes).1
  exact Nat.le_of_not_lt hfirst

/-- Every glyph of a text was read at some byte. -/
theorem exists_glyphAt_of_mem {bs : Bytes} {g : Glyph} (h : g ∈ glyphs bs) :
    ∃ a rest, g = glyphAt a rest := by
  fun_induction glyphs bs with
  | case1 => simp at h
  | case2 a rest ih =>
    rcases List.mem_cons.1 h with rfl | h
    · exact ⟨a, rest, rfl⟩
    · exact ih h

end Utf8

namespace Glyph

/-- A glyph as a number, and whether it is a stray byte. -/
def code : Glyph → Bool × Nat
  | .char c _ => (false, c.toNat)
  | .stray b => (true, b.toNat)

/-- The number of a glyph that was read from a text tells its bytes. -/
theorem bytes_eq_of_code {a b : UInt8} {as bs : Bytes}
    (h : (Utf8.glyphAt a as).code = (Utf8.glyphAt b bs).code) :
    (Utf8.glyphAt a as).bytes = (Utf8.glyphAt b bs).bytes := by
  cases ha : Utf8.glyphAt a as with
  | char c raw =>
    cases hb : Utf8.glyphAt b bs with
    | char c' raw' =>
      rw [ha, hb] at h
      have hraw := Utf8.byteNumbers_of_glyphAt ha
      have hraw' := Utf8.byteNumbers_of_glyphAt hb
      rw [show c.toNat = c'.toNat from (Prod.mk.inj h).2, ← hraw'] at hraw
      exact (List.map_inj_right fun _ _ => UInt8.toNat_inj.1).1 hraw
    | stray => simp [ha, hb, code] at h
  | stray x =>
    cases hb : Utf8.glyphAt b bs with
    | char => simp [ha, hb, code] at h
    | stray y =>
      rw [ha, hb] at h
      rw [UInt8.toNat_inj.1 (Prod.mk.inj h).2]

end Glyph

/-! ## escapes -/

namespace Text

theorem length_hexDigits (w n : Nat) : (hexDigits w n).length = w := by
  induction w generalizing n with
  | zero => rfl
  | succ w ih => rw [hexDigits, List.length_append, ih, List.length_singleton]

theorem hexDigitValue_hexDigit {n : Nat} (h : n < 16) : Number.hexDigitValue (hexDigit n) = n := by
  revert n
  decide

/-- The number of hexadecimal digits. -/
def hexNumber (cs : List Char) : Nat := Number.digitsValue 16 (cs.map Number.hexDigitValue)

/-- Hexadecimal digits have the value they are written for. -/
theorem hexNumber_hexDigits {w n : Nat} (h : n < 16 ^ w) : hexNumber (hexDigits w n) = n := by
  induction w generalizing n with
  | zero =>
    rw [Nat.pow_zero, Nat.lt_one_iff] at h
    rw [h]
    rfl
  | succ w ih =>
    have hdiv : n / 16 < 16 ^ w := by
      rw [Nat.div_lt_iff_lt_mul (by decide)]
      rwa [Nat.pow_succ] at h
    have hstep : hexNumber (hexDigits w (n / 16) ++ [hexDigit (n % 16)])
        = hexNumber (hexDigits w (n / 16)) * 16 + n % 16 := by
      simp [hexNumber, Number.digitsValue,
        hexDigitValue_hexDigit (Nat.mod_lt n (by decide : 0 < 16))]
    rw [hexDigits, hstep, ih hdiv]
    omega

/-- How many hexadecimal digits follow the letter of an escape. -/
def hexWidth? : Char → Option Nat
  | 'x' => some 2
  | 'u' => some 4
  | 'U' => some 8
  | _ => none

/-- The control character with a letter of its own. -/
def letterNumber? : Char → Option Nat
  | 'a' => some 7
  | 'b' => some 8
  | 'f' => some 12
  | 'n' => some 10
  | 'r' => some 13
  | 't' => some 9
  | 'v' => some 11
  | _ => none

/-- The code of the glyph at the front of a quoted text and what stands after it;
`none` at the closing quote. -/
def unescape? : List Char → Option ((Bool × Nat) × List Char)
  | [] => none
  | c :: cs =>
    if c = '"' then none
    else if c = '\\' then
      match cs with
      | [] => none
      | k :: cs =>
        match hexWidth? k with
        | some w =>
          let n := hexNumber (cs.take w)
          some ((k = 'x' && 0x80 ≤ n, n), cs.drop w)
        | none => some ((false, (letterNumber? k).getD k.toNat), cs)
    else some ((false, c.toNat), cs)

/-- A hexadecimal escape is read as its number. -/
theorem unescape?_hex {k : Char} {w n : Nat} (hw : hexWidth? k = some w) (hn : n < 16 ^ w)
    (r : List Char) :
    unescape? ('\\' :: k :: hexDigits w n ++ r) = some ((k = 'x' && 0x80 ≤ n, n), r) := by
  have hlen := length_hexDigits w n
  rw [List.cons_append, List.cons_append, unescape?, if_neg (by decide), if_pos rfl]
  simp only [hw]
  rw [List.take_left' hlen, List.drop_left' hlen, hexNumber_hexDigits hn]

/-- A letter escape is read as its character. -/
theorem unescape?_letter {c l : Char} (h : escapeLetter? c = some l) (r : List Char) :
    unescape? ('\\' :: l :: r) = some ((false, c.toNat), r) := by
  unfold escapeLetter? at h
  split at h
  case h_8 => cases h
  all_goals
    rename_i hc
    cases h
    rw [hc]
    rfl

/-- An escaped character is read as itself. -/
theorem unescape?_escapeChar (c : Char) (r : List Char) :
    unescape? (escapeChar '"' c ++ r) = some ((false, c.toNat), r) := by
  have hlt : c.toNat < 0x110000 := by
    obtain h | h : c.toNat.isValidChar := c.valid
    · omega
    · exact h.2
  unfold escapeChar
  split
  case isTrue h =>
    rw [Bool.or_eq_true, decide_eq_true_iff, decide_eq_true_iff] at h
    rcases h with rfl | rfl <;> rfl
  case isFalse h =>
    rw [Bool.or_eq_true, decide_eq_true_iff, decide_eq_true_iff, not_or] at h
    split
    case isTrue =>
      rw [List.singleton_append]
      unfold unescape?
      dsimp only
      rw [if_neg h.1, if_neg h.2]
    case isFalse =>
      split
      case h_1 l hl => exact unescape?_letter hl r
      case h_2 =>
        split
        case isTrue hx =>
          rw [Bool.or_eq_true, decide_eq_true_iff, decide_eq_true_iff] at hx
          rw [unescape?_hex (k := 'x') rfl (by omega)]
          simp only [decide_true, Bool.true_and, Option.some.injEq, Prod.mk.injEq, and_true,
            decide_eq_false_iff_not]
          omega
        case isFalse =>
          split
          case isTrue hu =>
            rw [unescape?_hex (k := 'u') rfl (by omega)]
            rfl
          case isFalse =>
            rw [unescape?_hex (k := 'U') rfl (by omega)]
            rfl

/-- An escape is read as the glyph it was written for. -/
theorem unescape?_escapeGlyph (a : UInt8) (rest : Bytes) (r : List Char) :
    unescape? (escapeGlyph '"' (Utf8.glyphAt a rest) ++ r)
      = some ((Utf8.glyphAt a rest).code, r) := by
  cases h : Utf8.glyphAt a rest with
  | char c raw => exact unescape?_escapeChar c r
  | stray b =>
    have hge := Utf8.le_of_glyphAt_stray h
    have hlt : b.toNat < 16 ^ 2 := b.toNat_lt
    have hread := unescape?_hex (k := 'x') rfl hlt r
    rw [escapeGlyph, hread]
    simp [Glyph.code, hge]

/-! ## quoted texts -/

/-- Escaped glyphs are told apart. -/
theorem escaped_append {gs gs' : List Glyph} (hgs : ∀ g ∈ gs, ∃ a rest, g = Utf8.glyphAt a rest)
    (hgs' : ∀ g ∈ gs', ∃ a rest, g = Utf8.glyphAt a rest) {r s : List Char}
    (h : gs.flatMap (escapeGlyph '"') ++ '"' :: r = gs'.flatMap (escapeGlyph '"') ++ '"' :: s) :
    gs.flatMap Glyph.bytes = gs'.flatMap Glyph.bytes ∧ r = s := by
  have hclose : ∀ t, unescape? ('"' :: t) = none := fun t => rfl
  induction gs generalizing gs' with
  | nil =>
    cases gs' with
    | nil => exact ⟨rfl, (List.cons.inj h).2⟩
    | cons g gs' =>
      obtain ⟨a, rest, rfl⟩ := hgs' g (by simp)
      have hread := unescape?_escapeGlyph a rest (gs'.flatMap (escapeGlyph '"') ++ '"' :: s)
      rw [← List.append_assoc, ← List.flatMap_cons, ← h] at hread
      cases (hclose r).symm.trans hread
  | cons g gs ih =>
    obtain ⟨a, rest, rfl⟩ := hgs g (by simp)
    have hread := unescape?_escapeGlyph a rest (gs.flatMap (escapeGlyph '"') ++ '"' :: r)
    rw [← List.append_assoc, ← List.flatMap_cons, h] at hread
    cases gs' with
    | nil => cases (hclose s).symm.trans hread
    | cons g' gs' =>
      obtain ⟨b, rest', rfl⟩ := hgs' g' (by simp)
      have hread' := unescape?_escapeGlyph b rest' (gs'.flatMap (escapeGlyph '"') ++ '"' :: s)
      rw [← List.append_assoc, ← List.flatMap_cons, hread, Option.some.injEq, Prod.mk.injEq]
        at hread'
      obtain ⟨hbytes, hrest⟩ := ih (fun g hg => hgs g (List.mem_cons_of_mem _ hg))
        (fun g hg => hgs' g (List.mem_cons_of_mem _ hg)) hread'.2
      rw [List.flatMap_cons, List.flatMap_cons, Glyph.bytes_eq_of_code hread'.1, hbytes]
      exact ⟨rfl, hrest⟩

theorem toList_quoteBytes (bs : Bytes) :
    (quoteBytes bs).toList = '"' :: (Utf8.glyphs bs).flatMap (escapeGlyph '"') ++ ['"'] := by
  rw [quoteBytes, String.toList_ofList]

/-- A quoted text tells what it quotes, whatever stands after it. -/
theorem quoteBytes_append {as bs : Bytes} {r s : List Char}
    (h : (quoteBytes as).toList ++ r = (quoteBytes bs).toList ++ s) : as = bs ∧ r = s := by
  rw [toList_quoteBytes, toList_quoteBytes, List.append_assoc, List.append_assoc] at h
  have hread := escaped_append (fun _ => Utf8.exists_glyphAt_of_mem)
    (fun _ => Utf8.exists_glyphAt_of_mem) (List.cons.inj h).2
  rwa [Utf8.flatMap_bytes_glyphs, Utf8.flatMap_bytes_glyphs] at hread

end Text

end EffectChain
