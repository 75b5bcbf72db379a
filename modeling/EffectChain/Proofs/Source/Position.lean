import EffectChain.Proofs.Text.Quoted
import EffectChain.Source.Error

/-!
# EffectChain.Proofs.Source.Position

Lines and columns of a source against its bytes.

Columns count characters, and offsets count bytes.  Where a text is cut beside an ASCII byte
it is cut between characters (`Utf8.glyphs_append`), so that places can be counted stretch
by stretch (`Pos.past_append`).

* `Pos.past_start` — the place after a text, told from the lines of the text;
* `SyntaxError.snippet_at` — an error at a place of its source shows the line and puts the
  caret below the column.
-/

namespace EffectChain

/-! ## texts cut between characters -/

namespace Utf8

/-- No character reaches over the cut between two texts: one of the bytes beside it is ASCII. -/
def Seam (a b : Bytes) : Prop := ∀ x ∈ a.getLast?, ∀ y ∈ b.head?, x < 0x80 ∨ y < 0x80

theorem Seam.nil (a : Bytes) : Seam a [] := by simp [Seam]

theorem Seam.of_ascii {a b : Bytes} {y : UInt8} (hy : y < 0x80) : Seam a (y :: b) := by
  intro x _ z hz
  obtain rfl : y = z := Option.some.inj hz
  exact .inr hy

/-- A text can be split behind a single byte. -/
theorem Seam.after_ascii {a b : Bytes} {x : UInt8} (hx : x < 0x80) : Seam (a ++ [x]) b := by
  intro z hz y _
  rw [List.getLast?_concat] at hz
  obtain rfl := Option.some.inj hz
  exact .inl hx

theorem Seam.of_all {a b : Bytes} (h : ∀ x ∈ a, x < 0x80) : Seam a b :=
  fun x hx _ _ => .inl (h x (List.mem_of_getLast? hx))

/-- A seam is one for shorter texts on both sides. -/
theorem Seam.mono {a b a' b' : Bytes} (h : Seam a b) (ha : a' <:+ a) (hb : b' <+: b) :
    Seam a' b' := by
  obtain ⟨s, rfl⟩ := ha
  obtain ⟨t, rfl⟩ := hb
  intro x hx y hy
  refine h x ?_ y ?_
  · rw [Option.mem_def, List.getLast?_append, Option.mem_def.1 hx, Option.some_or]
  · rw [Option.mem_def, List.head?_append, Option.mem_def.1 hy, Option.some_or]

theorem Seam.append_left {a b : Bytes} (ha : a ≠ []) (h : Seam a b) (c : Bytes) :
    Seam (c ++ a) b := by
  intro x hx
  rw [List.getLast?_append, List.getLast?_eq_some_getLast ha, Option.some_or] at hx
  exact h x (List.getLast?_eq_some_getLast ha ▸ hx)

theorem isTail_of_ascii {b : UInt8} (h : b < 0x80) : isTail b = false := by
  rw [Bool.eq_false_iff, ne_eq, isTail_iff]
  have hb : b.toNat < 0x80 := h
  omega

/-- No single byte is the second of a character. -/
theorem secondFits_of_ascii {b : UInt8} (a : UInt8) (h : b < 0x80) : secondFits a b = false := by
  rw [Bool.eq_false_iff]
  intro hfits
  have hbounds := (secondFits_bounds hfits).1
  have hb : b.toNat < 0x80 := h
  omega

/-- The bytes behind a cut between characters have no part in the characters before it. -/
theorem glyphAt_append {a : UInt8} {rest more : Bytes} (h : Seam (a :: rest) more) :
    glyphAt a (rest ++ more) = glyphAt a rest := by
  cases more with
  | nil => rw [List.append_nil]
  | cons y more =>
    by_cases ha : a < 0x80
    · simp only [glyphAt, if_pos ha]
    · -- a character has four bytes at most; the last byte before the cut, or the one behind it,
      -- is ASCII
      rcases rest with _ | ⟨b, _ | ⟨c, _ | ⟨d, rest⟩⟩⟩
      · have hy : y < 0x80 := (h a rfl y rfl).resolve_left ha
        rcases more with _ | ⟨z, _ | ⟨w, more⟩⟩ <;>
          simp [glyphAt, ha, isTail_of_ascii hy, secondFits_of_ascii a hy]
      · rcases h b rfl y rfl with hb | hy
        · rcases more with _ | ⟨z, more⟩
            <;> simp [glyphAt, ha, isTail_of_ascii hb, secondFits_of_ascii a hb]
        · rcases more with _ | ⟨z, more⟩ <;> simp [glyphAt, ha, isTail_of_ascii hy]
      · rcases h c rfl y rfl with hc | hy
        · simp [glyphAt, ha, isTail_of_ascii hc]
        · simp [glyphAt, ha, isTail_of_ascii hy]
      · rfl

/-- A text that is cut between characters is read part by part. -/
theorem glyphs_append {a b : Bytes} (h : Seam a b) : glyphs (a ++ b) = glyphs a ++ glyphs b := by
  fun_induction glyphs a with
  | case1 => simp
  | case2 x rest ih =>
    obtain ⟨more, hbytes, hfront⟩ := exists_bytes_glyphAt x rest
    have hlength : (glyphAt x rest).bytes.length ≤ (x :: rest).length := by
      rw [hbytes]
      exact Nat.succ_le_succ hfront.length_le
    rw [List.cons_append, glyphs_cons, glyphAt_append h, ← List.cons_append,
      List.drop_append_of_le_length hlength, ih (h.mono (List.drop_suffix _ _) List.prefix_rfl),
        List.cons_append]

theorem decode_append {a b : Bytes} (h : Seam a b) : decode (a ++ b) = decode a ++ decode b := by
  rw [decode, glyphs_append h, List.map_append]
  rfl

/-- Bytes of larger characters are not single ones. -/
theorem le_of_mem_byteNumbers {n k : Nat} (hn : 0x80 ≤ n) (h : k ∈ byteNumbers n) : 0x80 ≤ k := by
  unfold byteNumbers at h
  rw [if_neg (by omega)] at h
  repeat' split at h
  all_goals
    simp only [List.mem_cons, List.not_mem_nil, or_false] at h
    omega

/-- The offset is one between two characters of the text. -/
def IsBoundary (bs : Bytes) (k : Nat) : Prop := glyphs bs = glyphs (bs.take k) ++ glyphs (bs.drop k)

theorem Seam.isBoundary {a b : Bytes} (h : Seam a b) : IsBoundary (a ++ b) a.length := by
  rw [IsBoundary, List.take_left, List.drop_left]
  exact glyphs_append h

/-- A character is an ASCII byte, or has none. -/
theorem glyphAt_cases (a : UInt8) (rest : Bytes) :
    (a < 0x80 ∧ glyphAt a rest = .char (Char.ofUInt8 a) [a]) ∨
      (∀ b ∈ (glyphAt a rest).bytes, ¬ b < 0x80) ∧ 0x80 ≤ (glyphAt a rest).toChar.toNat := by
  by_cases ha : a < 0x80
  · refine .inl ⟨ha, ?_⟩
    unfold glyphAt
    rw [if_pos ha]
    exact congrArg (Glyph.char · [a]) (Char.ofNat_toNat (Char.ofUInt8 a))
  · refine .inr ?_
    obtain ⟨more, hbytes, -⟩ := exists_bytes_glyphAt a rest
    cases hglyph : glyphAt a rest with
    | stray b =>
      rw [hglyph] at hbytes
      obtain ⟨rfl, -⟩ := List.cons.inj hbytes
      exact ⟨fun x hx => List.mem_singleton.1 hx ▸ ha, (by decide : 0x80 ≤ '\ufffd'.toNat)⟩
    | char c raw =>
      rw [hglyph] at hbytes
      have hnumbers := byteNumbers_of_glyphAt hglyph
      have hc : 0x80 ≤ c.toNat := by
        by_contra hlow
        rw [show raw = a :: more from hbytes, byteNumbers, if_pos (by omega), List.map_cons]
          at hnumbers
        have hfirst : a.toNat = c.toNat := (List.cons.inj hnumbers).1
        exact ha (show a.toNat < 0x80 by omega)
      refine ⟨fun x hx => ?_, hc⟩
      have hmem : x.toNat ∈ byteNumbers c.toNat := hnumbers ▸ List.mem_map_of_mem hx
      exact Nat.not_lt.2 (le_of_mem_byteNumbers hc hmem)

end Utf8

/-! ## lines -/

namespace SyntaxError

theorem linesOf_newline (bs : Bytes) : linesOf (10 :: bs) = [] :: linesOf bs := rfl

/-- Every text has a first line. -/
theorem exists_linesOf (bs : Bytes) : ∃ l ls, linesOf bs = l :: ls := by
  cases hbs : linesOf bs with
  | cons l ls => exact ⟨l, ls, rfl⟩
  | nil =>
    cases bs with
    | nil => cases hbs
    | cons b bs =>
      unfold linesOf at hbs
      rw [List.foldr_cons] at hbs
      split at hbs
      · cases hbs
      · split at hbs <;> cases hbs

theorem exists_linesOf_concat (bs : Bytes) : ∃ before l, linesOf bs = before ++ [l] := by
  obtain ⟨m, ms, hm⟩ := exists_linesOf bs
  exact ⟨_, _, (List.dropLast_concat_getLast (hm ▸ List.cons_ne_nil m ms)).symm⟩

theorem linesOf_cons {b : UInt8} {bs l : Bytes} {ls : List Bytes} (hb : b ≠ 10)
    (h : linesOf bs = l :: ls) :
    linesOf (b :: bs) = (b :: l) :: ls := by
  unfold linesOf at h ⊢
  rw [List.foldr_cons, if_neg hb, h]

/-- The lines of a text that is put together: the last line of the first part and the first
line of the second are one. -/
theorem linesOf_append {a b : Bytes} {before after : List Bytes} {l m : Bytes}
    (ha : linesOf a = before ++ [l]) (hb : linesOf b = m :: after) :
    linesOf (a ++ b) = before ++ (l ++ m) :: after := by
  induction a generalizing before l with
  | nil =>
    obtain ⟨rfl, rfl⟩ : before = [] ∧ l = [] := by
      cases before with
      | nil => exact ⟨rfl, by simpa [linesOf] using ha.symm⟩
      | cons x xs => simp [linesOf] at ha
    exact hb
  | cons x a ih =>
    by_cases hx : x = 10
    · subst hx
      rw [linesOf_newline] at ha
      cases before with
      | nil =>
        obtain ⟨l', ls, hl'⟩ := exists_linesOf a
        simp [hl'] at ha
      | cons y before =>
        obtain ⟨rfl, hrest⟩ := List.cons.inj ha
        rw [List.cons_append, linesOf_newline, ih hrest]
        rfl
    · obtain ⟨l', ls, hl'⟩ := exists_linesOf a
      rw [linesOf_cons hx hl'] at ha
      cases before with
      | nil =>
        obtain ⟨rfl, rfl⟩ := List.cons.inj ha
        exact linesOf_cons hx (@ih [] _ hl')
      | cons y before =>
        obtain ⟨rfl, rfl⟩ := List.cons.inj ha
        exact linesOf_cons hx (@ih (l' :: before) _ hl')

/-- Splitting loses nothing but the newlines. -/
theorem intercalate_linesOf (bs : Bytes) : [10].intercalate (linesOf bs) = bs := by
  induction bs with
  | nil => rfl
  | cons b bs ih =>
    obtain ⟨l, ls, hl⟩ := exists_linesOf bs
    by_cases hb : b = 10
    · subst hb
      rw [linesOf_newline, hl, List.intercalate_cons_cons, ← hl, ih]
      rfl
    · rw [linesOf_cons hb hl]
      rw [hl] at ih
      cases ls with
      | nil => simpa using ih
      | cons m ls =>
        rw [List.intercalate_cons_cons] at ih ⊢
        rw [List.cons_append, List.cons_append, ih]

/-- The last line is a suffix of the text. -/
theorem suffix_of_linesOf {bs l : Bytes} {before : List Bytes} (h : linesOf bs = before ++ [l]) :
    l <:+ bs := by
  rw [← intercalate_linesOf bs, h]
  clear h
  induction before with
  | nil => exact ⟨[], (List.intercalate_singleton ..).symm⟩
  | cons m before ih =>
    rw [List.cons_append, List.intercalate_cons_of_ne_nil (by simp)]
    exact ih.trans (List.suffix_append _ _)

/-- The first line is a prefix of the text. -/
theorem prefix_of_linesOf {bs l : Bytes} {after : List Bytes} (h : linesOf bs = l :: after) :
    l <+: bs := by
  rw [← intercalate_linesOf bs, h]
  cases after with
  | nil => exact ⟨[], (List.append_nil l).trans (List.intercalate_singleton ..).symm⟩
  | cons m after =>
    rw [List.intercalate_cons_cons, List.append_assoc]
    exact List.prefix_append _ _

/-- No line holds a newline. -/
theorem notMem_of_mem_linesOf {bs l : Bytes} (h : l ∈ linesOf bs) : 10 ∉ l := by
  induction bs generalizing l with
  | nil =>
    obtain rfl := List.mem_singleton.1 h
    exact List.not_mem_nil
  | cons b bs ih =>
    obtain ⟨m, ls, hm⟩ := exists_linesOf bs
    by_cases hb : b = 10
    · subst hb
      rw [linesOf_newline] at h
      rcases List.mem_cons.1 h with rfl | h
      · exact List.not_mem_nil
      · exact ih h
    · rw [linesOf_cons hb hm] at h
      rcases List.mem_cons.1 h with rfl | h
      · have hrest := ih (l := m) (hm ▸ List.mem_cons_self)
        simp [Ne.symm hb, hrest]
      · exact ih (hm ▸ List.mem_cons_of_mem m h)

end SyntaxError

/-! ## places -/

namespace Pos

open SyntaxError (linesOf)

/-- The place behind a text, as its lines tell it: the number of the lines, and one column
more than the last line has characters. -/
def behind (bs : Bytes) : Pos :=
  ⟨(linesOf bs).length, (Utf8.glyphs ((linesOf bs).getLastD [])).length + 1⟩

/-- The place of an offset in a text. -/
def ofOffset (source : Bytes) (k : Nat) : Pos := behind (source.take k)

theorem ofOffset_length (a b : Bytes) :
    ofOffset (a ++ b) a.length = behind a := by rw [ofOffset, List.take_left]

/-- Places are counted part by part where a text is cut between characters. -/
theorem past_append {a b : Bytes} (h : Utf8.Seam a b) (p : Pos) :
    p.past (a ++ b) = (p.past a).past b := by
  rw [past, past, past, Utf8.decode_append h, List.foldl_append]

/-- A text without a newline moves the place by the number of its characters. -/
theorem past_line {l : Bytes} (h : 10 ∉ l) (p : Pos) :
    p.past l = ⟨p.line, p.col + (Utf8.glyphs l).length⟩ := by
  have hchars : ∀ g ∈ Utf8.glyphs l, g.toChar ≠ '\n' := by
    intro g hg hnewline
    obtain ⟨a, rest, rfl⟩ := Utf8.exists_glyphAt_of_mem hg
    rcases Utf8.glyphAt_cases a rest with ⟨-, hglyph⟩ | ⟨-, hother⟩
    · rw [hglyph] at hg hnewline
      have ha : a.toNat = 10 := congrArg Char.toNat hnewline
      obtain rfl : a = 10 := UInt8.toNat_inj.1 ha
      refine h ?_
      rw [← Utf8.flatMap_bytes_glyphs l]
      exact List.mem_flatMap.2 ⟨_, hg, List.mem_singleton_self _⟩
    · rw [hnewline] at hother
      exact absurd hother (by decide)
  have hfold : ∀ (gs : List Glyph) (p : Pos), (∀ g ∈ gs, g.toChar ≠ '\n') →
      (gs.map Glyph.toChar).foldl after p = ⟨p.line, p.col + gs.length⟩ := by
    intro gs
    induction gs with
    | nil => exact fun p _ => rfl
    | cons g gs ih =>
      intro p hgs
      obtain ⟨hg, hgs⟩ := List.forall_mem_cons.1 hgs
      rw [List.map_cons, List.foldl_cons, ih _ hgs, after, if_neg hg, List.length_cons,
        Nat.add_assoc, Nat.add_comm 1]
  exact hfold _ p hchars

/-- Going past lines counts them, and the glyphs of the last. -/
theorem past_lines {before : List Bytes} {l : Bytes} (h : ∀ m ∈ before ++ [l], 10 ∉ m) (n : Nat) :
    Pos.past ⟨n, 1⟩ ([10].intercalate (before ++ [l])) =
      ⟨n + before.length, (Utf8.glyphs l).length + 1⟩ := by
  induction before generalizing n with
  | nil =>
    rw [List.nil_append, List.intercalate_singleton, past_line (h l (by simp)), Nat.add_comm]
    rfl
  | cons m before ih =>
    have hm : 10 ∉ m := h m (by simp)
    have hrest := ih (fun x hx => h x (List.mem_cons_of_mem m hx)) (n + 1)
    have hascii : (10 : UInt8) < 0x80 := by decide
    have hnewline : Utf8.Seam [10] ([10].intercalate (before ++ [l])) :=
      Utf8.Seam.after_ascii (a := []) hascii
    have hline : Utf8.Seam m ([10] ++ [10].intercalate (before ++ [l])) := .of_ascii hascii
    rw [List.cons_append, List.intercalate_cons_of_ne_nil (by simp), List.append_assoc,
      past_append hline, past_append hnewline, past_line hm]
    have hafter : Pos.past ⟨n, 1 + (Utf8.glyphs m).length⟩ [10] = ⟨n + 1, 1⟩ := by
      simp [past, Utf8.decode, Utf8.glyphs_cons, Utf8.glyphAt, Glyph.bytes, Glyph.toChar, after]
    rw [hafter, hrest, List.length_cons]
    congr 1
    omega

/-- Going past a text from its start is standing behind it. -/
theorem past_start (bs : Bytes) : start.past bs = behind bs := by
  obtain ⟨before, l, hl⟩ := SyntaxError.exists_linesOf_concat bs
  have hlines := past_lines (fun m hm => SyntaxError.notMem_of_mem_linesOf (hl ▸ hm)) 1
  rw [← hl, SyntaxError.intercalate_linesOf] at hlines
  rw [start, hlines, behind, hl]
  simp [Nat.add_comm]

/-- The line of the place behind a text, when more text follows, and the character it is at. -/
theorem line_behind {a b : Bytes} (h : Utf8.Seam a b) :
    ∃ line, (linesOf (a ++ b))[(behind a).line - 1]? = some line ∧
      (behind a).col ≤ (Utf8.glyphs line).length + 1 := by
  obtain ⟨before, l, hl⟩ := SyntaxError.exists_linesOf_concat a
  obtain ⟨m, after, hm⟩ := SyntaxError.exists_linesOf b
  have hseam : Utf8.Seam l m :=
    h.mono (SyntaxError.suffix_of_linesOf hl) (SyntaxError.prefix_of_linesOf hm)
  refine ⟨l ++ m, ?_, ?_⟩
  · rw [SyntaxError.linesOf_append hl hm, behind, hl]
    simp
  · rw [behind, hl, List.getLastD_concat, Utf8.glyphs_append hseam]
    simp

end Pos

/-- An error at a place of its source shows the line of the place, and puts the caret below
the column: below a character of the line or one past its end. -/
theorem SyntaxError.snippet_at {a b : Bytes} (h : Utf8.Seam a b) (hsource : a ++ b ≠ [])
    {e : SyntaxError} (hpos : e.pos = Pos.behind a) (he : e.source = a ++ b) :
    ∃ line, (linesOf e.source)[e.pos.line - 1]? = some line ∧
    e.pos.col ≤ (Bytes.toString line).length + 1 ∧
      e.snippet = "  " ++ toString e.pos.line ++ " | " ++ Bytes.toString line ++ "\n" ++
        String.ofList (List.replicate ((toString e.pos.line).length + 5 + (e.pos.col - 1)) ' ') ++
          "^\n" := by
  obtain ⟨line, hline, hcol⟩ := Pos.line_behind h
  have hknown : ¬ (Pos.behind a).line = 0 := by
    obtain ⟨l, ls, hl⟩ := exists_linesOf a
    rw [Pos.behind, hl]
    exact Nat.succ_ne_zero _
  rw [hpos, he]
  refine ⟨line, hline, ?_, ?_⟩
  · simpa [Bytes.toString, Utf8.decode] using hcol
  · unfold snippet
    rw [hpos, he, if_neg (by simp [hknown, hsource]), hline]

end EffectChain
