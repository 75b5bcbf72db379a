import EffectChain.Plan.Lower
import EffectChain.Plan.Printer
import EffectChain.Proofs.Program.Literal

/-!
# EffectChain.Proofs.Plan.Quoting

String arguments, written and read again.

Quoted text has more escapes than a literal of the language: behind a backslash a literal knows
`n` and `t` only, and takes every other character for itself.  So each glyph is read again as
its bytes or as its escape without the backslash (`Glyph.reread`), which never are the same
(`Glyph.reread_ne`).
-/

namespace EffectChain

open Lexer (StandsFor)

/-! ## one glyph -/

namespace Glyph

/-- A character that is written as itself or as an escape of the language. -/
def isKept : Glyph → Bool
  | .char c _ => Text.isPrintable c || c = '\n' || c = '\t'
  | .stray _ => false

/-- What is read where the glyph was written: the escapes the language does not know lose
their backslash. -/
def reread (g : Glyph) : Bytes :=
  if g.isKept then g.bytes else Utf8.encode (Text.escapeGlyph '"' g).tail

end Glyph

namespace Text

theorem isPrintable_quote : isPrintable '"' = true ∧ isPrintable '\\' = true := by decide

theorem hexDigit_ascii {n : Nat} (h : n < 16) :
    (hexDigit n).toNat < 0x80 ∧ hexDigit n ≠ '"' ∧ hexDigit n ≠ '\\' := by
  revert n
  decide

/-- Hexadecimal digits are single bytes and neither quote nor backslash. -/
theorem hexDigits_ascii (w n : Nat) :
    ∀ c ∈ hexDigits w n, c.toNat < 0x80 ∧ c ≠ '"' ∧ c ≠ '\\' := by
  induction w generalizing n with
  | zero => simp [hexDigits]
  | succ w ih =>
    rw [hexDigits, List.forall_mem_append]
    exact ⟨ih _, by simpa using hexDigit_ascii (Nat.mod_lt n (by decide))⟩

/-- The escape of a character that is not printable: a letter, or a letter and digits. -/
theorem escapeChar_cases {c : Char} (h : isPrintable c = false) :
    (∃ l, escapeLetter? c = some l ∧ escapeChar '"' c = ['\\', l]) ∨
      escapeLetter? c = none ∧ ∃ l w, escapeChar '"' c = '\\' :: l :: hexDigits w c.toNat ∧
        (l, w) ∈ [('x', 2), ('u', 4), ('U', 8)] ∧ (c.toNat < 0x80 ∨ l ≠ 'x') ∧
        (c.toNat < 0x10000 ∨ l = 'U') := by
  have hquote : ¬ (c = '"' ∨ c = '\\') := by
    rintro (rfl | rfl)
    · rw [isPrintable_quote.1] at h
      cases h
    · rw [isPrintable_quote.2] at h
      cases h
  unfold escapeChar
  rw [if_neg (by simpa using hquote), if_neg (by simp [h])]
  cases hletter : escapeLetter? c with
  | some l => exact .inl ⟨l, rfl, rfl⟩
  | none =>
    refine .inr ⟨rfl, ?_⟩
    dsimp only
    split
    · rename_i hx
      simp only [Bool.or_eq_true, decide_eq_true_eq] at hx
      exact ⟨_, _, rfl, by simp, .inl (by omega), .inl (by omega)⟩
    split
    · exact ⟨_, _, rfl, by simp, .inr (by decide), .inl ‹_›⟩
    · exact ⟨_, _, rfl, by simp, .inr (by decide), .inr rfl⟩

/-- A control character with a letter is one byte, and not its letter. -/
theorem escapeLetter_spec {c l : Char} (h : escapeLetter? c = some l) :
    c.toNat < 0x20 ∧ l.toNat < 0x80 ∧ 0x20 ≤ l.toNat ∧ l ≠ '"' ∧ l ≠ '\\' ∧ (l = 'n' → c = '\n') ∧
    (l = 't' → c = '\t') := by
  unfold escapeLetter? at h
  split at h
  case h_8 => cases h
  all_goals
    rename_i hc
    obtain rfl := Option.some.inj h
    have hchar : c = Char.ofNat c.toNat := (Char.ofNat_toNat c).symm
    rw [hc] at hchar
    subst hchar
    decide

end Text

namespace Utf8

theorem utf8EncodeChar_ascii {c : Char} (h : c.toNat < 0x80) :
    String.utf8EncodeChar c = [UInt8.ofNat c.toNat] := by
  rcases utf8EncodeChar_cases c with ⟨-, hc⟩ | ⟨hge, -⟩ | ⟨hge, -⟩ | ⟨hge, -⟩
  · exact hc
  all_goals omega

theorem ofUInt8_ascii {c : Char} (h : c.toNat < 0x80) : Char.ofUInt8 (UInt8.ofNat c.toNat) = c := by
  have hmap : (encode [c]).map Char.ofUInt8 = [c] := map_encode_ascii (by simpa using h)
  rw [encode_cons, utf8EncodeChar_ascii h] at hmap
  exact (List.cons.inj hmap).1

/-- A character has the bytes it was read from. -/
theorem utf8EncodeChar_of_glyphAt {a : UInt8} {rest raw : Bytes} {c : Char}
    (h : glyphAt a rest = .char c raw) :
    String.utf8EncodeChar c = raw := by
  obtain ⟨a', more, hbytes, hglyph⟩ := glyphAt_utf8EncodeChar c
  have hraw := byteNumbers_of_glyphAt h
  have hencode := byteNumbers_of_glyphAt (hglyph [])
  rw [hbytes]
  exact (List.map_inj_right fun _ _ => UInt8.toNat_inj.1).1 (hencode.trans hraw.symm)

end Utf8

/-! ## what is read where a glyph was written -/

/-- An escape that the language does not know is read as what stands behind its backslash. -/
theorem standsFor_unknown {l : Char} {ds : List Char} (hl : l.toNat < 0x80) (hn : l ≠ 'n')
    (ht : l ≠ 't') (hds : ∀ c ∈ ds, c.toNat < 0x80 ∧ c ≠ '"' ∧ c ≠ '\\') :
    StandsFor 34 (Utf8.encode ('\\' :: l :: ds)) (Utf8.encode (l :: ds)) := by
  have hletter : Lexer.unescape (UInt8.ofNat l.toNat) = UInt8.ofNat l.toNat := by
    unfold Lexer.unescape
    rw [Utf8.ofUInt8_ascii hl]
    split <;> simp_all
  have hfirst : UInt8.ofNat l.toNat < 0x80 := by
    rw [UInt8.lt_iff_toNat_lt, Utf8.toNat_ofNat_byte (by omega)]
    exact hl
  have hnot : ∀ {d : Char}, d.toNat < 0x80 → (∀ c ∈ ds, c ≠ d) →
      UInt8.ofNat d.toNat ∉ Utf8.encode ds := by
    intro d hd hne hmem
    obtain ⟨c, hc, hb⟩ := List.mem_flatMap.1 hmem
    rw [Utf8.utf8EncodeChar_ascii (hds c hc).1, List.mem_singleton] at hb
    refine hne c hc ?_
    rw [← Utf8.ofUInt8_ascii (hds c hc).1, ← hb, Utf8.ofUInt8_ascii hd]
  have htext : Utf8.encode ('\\' :: l :: ds) = [92, UInt8.ofNat l.toNat] ++ Utf8.encode ds := by
    rw [Utf8.encode_cons, Utf8.encode_cons, Utf8.utf8EncodeChar_ascii hl]
    rfl
  have hmeant : Utf8.encode (l :: ds) = [UInt8.ofNat l.toNat] ++ Utf8.encode ds := by
    rw [Utf8.encode_cons, Utf8.utf8EncodeChar_ascii hl]
  have hescape : StandsFor 34 [92, UInt8.ofNat l.toNat] [Lexer.unescape (UInt8.ofNat l.toNat)] :=
    .escape (by decide) hfirst
  rw [hletter] at hescape
  rw [htext, hmeant]
  exact hescape.append (.verbatim (hnot (d := '"') (by decide) fun c hc => (hds c hc).2.1)
    (hnot (d := '\\') (by decide) fun c hc => (hds c hc).2.2))

/-- A printable character is written so that it is read. -/
theorem standsFor_printable {c : Char} (h : Text.isPrintable c = true) :
    StandsFor 34 (Utf8.encode (Text.escapeChar '"' c)) (String.utf8EncodeChar c) := by
  unfold Text.escapeChar
  split
  · rename_i hquote
    rw [Bool.or_eq_true, decide_eq_true_eq, decide_eq_true_eq] at hquote
    rcases hquote with rfl | rfl
    · exact .escape (by decide) (by decide)
    · exact .escape (by decide) (by decide)
  · rename_i hquote
    rw [Bool.or_eq_true, decide_eq_true_eq, decide_eq_true_eq, not_or] at hquote
    have hnot : ∀ {d : Char}, d.toNat < 0x80 → c ≠ d →
        UInt8.ofNat d.toNat ∉ String.utf8EncodeChar c := by
      intro d hd hne hmem
      have hone :=
        Utf8.utf8EncodeChar_of_ascii (by rw [Utf8.toNat_ofNat_byte (by omega)]; exact hd) hmem
      refine hne ?_
      have hsame : Utf8.encode [c] = Utf8.encode [d] := by
        rw [Utf8.encode_cons, Utf8.encode_cons, hone, Utf8.utf8EncodeChar_ascii hd]
      have hread := congrArg Utf8.decode hsame
      rw [Utf8.decode_encode, Utf8.decode_encode] at hread
      exact (List.cons.inj hread).1
    have htext : Utf8.encode [c] = String.utf8EncodeChar c := by simp [Utf8.encode]
    rw [htext]
    exact .verbatim (hnot (d := '"') (by decide) hquote.1) (hnot (d := '\\') (by decide) hquote.2)

theorem Glyph.reread_of_not_kept {g : Glyph} (h : g.isKept = false) :
    g.reread = Utf8.encode (Text.escapeGlyph '"' g).tail := by
  rw [reread, h]
  rfl

/-- A control character that no escape of the language stands for. -/
theorem Glyph.not_kept {c : Char} {raw : Bytes} (h : Text.isPrintable c = false) (hn : c ≠ '\n')
    (ht : c ≠ '\t') :
    (Glyph.char c raw).isKept = false := by
  simp [isKept, h, hn, ht]

/-- In the place of a glyph its reread bytes are read. -/
theorem standsFor_glyph {g : Glyph} (hg : ∃ a rest, g = Utf8.glyphAt a rest) :
    StandsFor 34 (Utf8.encode (Text.escapeGlyph '"' g)) g.reread := by
  obtain ⟨a, rest, hg⟩ := hg
  cases g with
  | stray b =>
      exact standsFor_unknown (by decide) (by decide) (by decide) (Text.hexDigits_ascii 2 b.toNat)
  | char c raw =>
    have hraw := Utf8.utf8EncodeChar_of_glyphAt hg.symm
    cases hprintable : Text.isPrintable c with
    | true =>
      have hread := standsFor_printable hprintable
      rw [hraw] at hread
      rwa [Glyph.reread, Glyph.isKept, hprintable, Bool.true_or, Bool.true_or]
    | false =>
      rcases Text.escapeChar_cases hprintable with ⟨l, hl, htext⟩ | ⟨hnone, l, w, htext, hlw, -⟩
      · obtain ⟨-, hascii, -, -, -, hn, ht⟩ := Text.escapeLetter_spec hl
        by_cases hnewline : c = '\n'
        · subst hnewline hraw
          exact .escape (by decide) (by decide)
        by_cases htab : c = '\t'
        · subst htab hraw
          exact .escape (by decide) (by decide)
        rw [Glyph.reread_of_not_kept (Glyph.not_kept hprintable hnewline htab),
          Text.escapeGlyph, htext]
        exact standsFor_unknown hascii (fun h => hnewline (hn h)) (fun h => htab (ht h)) (by simp)
      · have hnewline : c ≠ '\n' := by
          rintro rfl
          cases hnone
        have htab : c ≠ '\t' := by
          rintro rfl
          cases hnone
        have hletter : l.toNat < 0x80 ∧ l ≠ 'n' ∧ l ≠ 't' := by
          simp only [List.mem_cons, Prod.mk.injEq, List.not_mem_nil, or_false] at hlw
          rcases hlw with ⟨rfl, -⟩ | ⟨rfl, -⟩ | ⟨rfl, -⟩ <;> decide
        rw [Glyph.reread_of_not_kept (Glyph.not_kept hprintable hnewline htab),
          Text.escapeGlyph, htext]
        exact standsFor_unknown hletter.1 hletter.2.1 hletter.2.2 (Text.hexDigits_ascii w c.toNat)

/-! ## the glyphs that are kept -/

theorem Utf8.length_encode_ascii {cs : List Char} (h : ∀ c ∈ cs, c.toNat < 0x80) :
    (encode cs).length = cs.length := by
  rw [← List.length_map, map_encode_ascii h]

/-- What the language has no escape for is not read again, and nothing shorter is. -/
theorem Glyph.reread_ne {g : Glyph} (hg : ∃ a rest, g = Utf8.glyphAt a rest)
    (h : g.isKept = false) :
    g.bytes.length ≤ g.reread.length ∧ g.reread ≠ g.bytes := by
  obtain ⟨a, rest, hg⟩ := hg
  rw [reread_of_not_kept h]
  cases g with
  | stray b =>
    have hlength : (Utf8.encode (Text.escapeGlyph '"' (.stray b)).tail).length = 3 := by
      have hascii : ∀ c ∈ 'x' :: Text.hexDigits 2 b.toNat, c.toNat < 0x80 :=
        List.forall_mem_cons.2 ⟨by decide, fun c hc => (Text.hexDigits_ascii 2 b.toNat c hc).1⟩
      change (Utf8.encode ('x' :: Text.hexDigits 2 b.toNat)).length = 3
      rw [Utf8.length_encode_ascii hascii, List.length_cons, Text.length_hexDigits]
    refine ⟨by rw [hlength]; simp [bytes], fun heq => ?_⟩
    rw [heq] at hlength
    cases hlength
  | char c raw =>
    have hprintable : Text.isPrintable c = false := by
      simp only [isKept, Bool.or_eq_false_iff] at h
      exact h.1.1
    have hraw := Utf8.byteNumbers_of_glyphAt hg.symm
    have hlength : raw.length = (Utf8.byteNumbers c.toNat).length := by rw [← hraw, List.length_map]
    rcases Text.escapeChar_cases hprintable with ⟨l, hl, htext⟩ | ⟨-, l, w, htext, hlw, hx, hu⟩
    · -- one byte for one byte, but a letter for a control character
      obtain ⟨hcontrol, hascii, hge, -⟩ := Text.escapeLetter_spec hl
      have hone := Utf8.utf8EncodeChar_of_glyphAt hg.symm
      rw [Utf8.utf8EncodeChar_ascii (by omega)] at hone
      have hread : Utf8.encode (Text.escapeGlyph '"' (.char c raw)).tail =
          [UInt8.ofNat l.toNat] := by
        rw [Text.escapeGlyph, htext, List.tail_cons, Utf8.encode_cons,
          Utf8.utf8EncodeChar_ascii hascii]
        rfl
      rw [hread, bytes, ← hone]
      refine ⟨Nat.le_refl 1, fun heq => ?_⟩
      have hnumber := congrArg UInt8.toNat (List.cons.inj heq).1
      rw [Utf8.toNat_ofNat_byte (by omega), Utf8.toNat_ofNat_byte (by omega)] at hnumber
      omega
    · -- more digits than bytes
      have hascii : l.toNat < 0x80 := by
        simp only [List.mem_cons, Prod.mk.injEq, List.not_mem_nil, or_false] at hlw
        rcases hlw with ⟨rfl, -⟩ | ⟨rfl, -⟩ | ⟨rfl, -⟩ <;> decide
      have hread : (Utf8.encode (Text.escapeGlyph '"' (.char c raw)).tail).length = w + 1 := by
        rw [Text.escapeGlyph, htext, List.tail_cons, Utf8.length_encode_ascii, List.length_cons,
          Text.length_hexDigits]
        exact List.forall_mem_cons.2 ⟨hascii, fun c' hc => (Text.hexDigits_ascii w c.toNat c' hc).1⟩
      have hlt : (bytes (.char c raw)).length < w + 1 := by
        rw [bytes, hlength, Utf8.byteNumbers]
        simp only [List.mem_cons, Prod.mk.injEq, List.not_mem_nil, or_false] at hlw
        rcases hlw with ⟨rfl, rfl⟩ | ⟨rfl, rfl⟩ | ⟨rfl, rfl⟩
        · rw [if_pos (hx.resolve_right (by simp))]
          simp
        all_goals
          repeat' split
          all_goals simp
      refine ⟨by omega, fun heq => ?_⟩
      rw [heq] at hread
      omega

/-- A text is reread as itself just when each of its glyphs is kept. -/
theorem flatMap_reread_iff {gs : List Glyph} (hgs : ∀ g ∈ gs, ∃ a rest, g = Utf8.glyphAt a rest) :
    gs.flatMap Glyph.reread = gs.flatMap Glyph.bytes ↔ ∀ g ∈ gs, g.isKept = true := by
  have hkept : ∀ {g : Glyph}, g.isKept = true → g.reread = g.bytes := fun h => if_pos h
  have hle : ∀ {g : Glyph}, (∃ a rest, g = Utf8.glyphAt a rest) →
      g.bytes.length ≤ g.reread.length := by
    intro g hg
    cases h : g.isKept with
    | true => rw [hkept h]
    | false => exact (Glyph.reread_ne hg h).1
  have hall : ∀ {gs : List Glyph}, (∀ g ∈ gs, ∃ a rest, g = Utf8.glyphAt a rest) →
      (gs.flatMap Glyph.bytes).length ≤ (gs.flatMap Glyph.reread).length := by
    intro gs hgs
    induction gs with
    | nil => simp
    | cons g gs ih =>
      rw [List.forall_mem_cons] at hgs
      rw [List.flatMap_cons, List.flatMap_cons, List.length_append, List.length_append]
      exact Nat.add_le_add (hle hgs.1) (ih hgs.2)
  induction gs with
  | nil => simp
  | cons g gs ih =>
    rw [List.forall_mem_cons] at hgs
    rw [List.flatMap_cons, List.flatMap_cons, List.forall_mem_cons]
    constructor
    · intro heq
      -- no part is read as something shorter, so that the parts have the same lengths
      have hlengths := congrArg List.length heq
      rw [List.length_append, List.length_append] at hlengths
      have hfirst := hle hgs.1
      have hothers := hall hgs.2
      obtain ⟨hg, hrest⟩ := List.append_inj heq (by omega)
      refine ⟨?_, (ih hgs.2).1 hrest⟩
      cases h : g.isKept with
      | true => rfl
      | false => exact absurd hg (Glyph.reread_ne hgs.1 h).2
    · rintro ⟨hg, hrest⟩
      rw [hkept hg, (ih hgs.2).2 hrest]

/-! ## string arguments -/

/-- The contents that are read where a text was written. -/
def Text.reread (bs : Bytes) : Bytes := (Utf8.glyphs bs).flatMap Glyph.reread

/-- A literal that denotes a text: quotes and backslashes are escaped. -/
def Text.literal (bs : Bytes) : Bytes :=
  34 :: bs.flatMap (fun b => if b = 34 ∨ b = 92 then [92, b] else [b]) ++ [34]

/-- Every text is denoted by a literal. -/
theorem scans_literal (bs : Bytes) : Lexer.Scans (fun _ => True) (Text.literal bs) .string bs := by
  have hbody : StandsFor 34 (bs.flatMap fun b => if b = 34 ∨ b = 92 then [92, b] else [b])
      (bs.flatMap fun b => [b]) := by
    refine .flatMap fun b _ => ?_
    split
    · rename_i hb
      rcases hb with rfl | rfl
      · exact .escape (by decide) (by decide)
      · exact .escape (by decide) (by decide)
    · rename_i hb
      rw [not_or] at hb
      exact .plain hb.1 hb.2
  rw [List.flatMap_singleton'] at hbody
  exact hbody.scans (by decide)

/-- A quoted text stands for what it is reread as. -/
theorem standsFor_quoted (bs : Bytes) :
    ∃ body, Bytes.ofString (Text.quoteBytes bs) = 34 :: body ++ [34] ∧
    StandsFor 34 body (Text.reread bs) := by
  refine ⟨(Utf8.glyphs bs).flatMap fun g => Utf8.encode (Text.escapeGlyph '"' g), ?_, ?_⟩
  · rw [Bytes.ofString, Text.toList_quoteBytes, List.cons_append, Utf8.encode_cons,
      Utf8.encode_append, Utf8.encode, List.flatMap_assoc]
    rfl
  · exact .flatMap fun g hg => standsFor_glyph (Utf8.exists_glyphAt_of_mem hg)

/-- What is written for a string argument is one string token and is read as a string argument
again, of the text without the backslashes of the escapes that the language does not know.  So it is
the same text if and only if it has no stray bytes, and no characters that are not printable but
newlines and tabs, although every text is denoted by a literal. -/
theorem texts_reread (s : Bytes) {a : ArgSpec} (ha : a.type = .string) :
    Lexer.Scans (fun _ => True) (Text.literal s) .string s ∧
      (∀ (u : Printer) (chain : Nat → String),
        Lexer.Scans (fun _ => True) (Bytes.ofString (u.valueText chain a (.text s))) .string
          (Text.reread s) ∧
          Parser.ReadAs (Bytes.ofString (u.valueText chain a (.text s)))
            (.string (Text.reread s))) ∧
      (∀ (k : Surroundings) (sub : LowerChain) (base : Nat) (t : Bytes) (pos : Pos),
        k.argument sub base a (.string t pos) = ({}, some (.text t))) ∧
      (Text.reread s = s ↔ ∀ g ∈ Utf8.glyphs s, g.isKept = true) := by
  refine ⟨scans_literal s, fun u chain => ?_, fun k sub base t pos => ?_, ?_⟩
  · obtain ⟨body, hbody, hstands⟩ := standsFor_quoted s
    have hshown : u.valueText chain a (.text s) = Text.quoteBytes s := rfl
    rw [hshown, hbody]
    exact ⟨hstands.scans (by decide), Parser.readAs_string (by decide) hstands⟩
  · rw [Surroundings.argument, ha]
    rfl
  · have hiff := @flatMap_reread_iff (Utf8.glyphs s) fun _ => Utf8.exists_glyphAt_of_mem
    rwa [Utf8.flatMap_bytes_glyphs] at hiff

/-- A carriage return is read again as the letter r. -/
theorem carriage_return_lost : ({ name := "label", type := .string } : ArgSpec).type = .string ∧
    Lexer.Scans (fun _ => True) (Text.literal [13]) .string [13] ∧
      Parser.ReadAs
        (Bytes.ofString
          (Printer.valueText ⟨{}, {}, {}⟩ (fun _ => "") { name := "label", type := .string }
        (.text [13]))) (.string [114]) ∧ Text.reread [13] ≠ [13] := by
  have hlabel : ({ name := "label", type := .string } : ArgSpec).type = .string := rfl
  obtain ⟨hliteral, hwritten, -, -⟩ := texts_reread [13] hlabel
  have hread : Text.reread [13] = [114] := by decide +kernel
  refine ⟨hlabel, hliteral, ?_, ?_⟩
  · have hargument := (hwritten ⟨{}, {}, {}⟩ fun _ => "").2
    rwa [hread] at hargument
  · rw [hread]
    decide

end EffectChain
