import EffectChain.Program.Parser
import EffectChain.Proofs.Program.Spelling
import EffectChain.Proofs.Source.Position

/-!
# EffectChain.Proofs.Token.Tiling

The tokens of a source against its bytes.

A source is made of stretches, each some blanks and comments and then the text of a token.
Some tokens are measured in bytes ahead of the cursor and some character by character, but
no stretch ends within a character: the byte it ends with, or the one behind it, is ASCII
(`Lexer.gap_spec`, `Lexer.lexeme_spec`).  So the places of the tokens are those of the
offsets in the source.

* `Lexer.Skipped`, `Lexer.Spells` — what is passed over, and the text of a token;
* `Token.scan_tiles` — the stretches of a source that has tokens, and the place of the error in
  one that has none.
-/

namespace EffectChain

open Utf8 (Seam)

namespace Lexer

/-! ## what is passed over -/

/-- Blanks and comments, with the text that stands behind them. -/
inductive Skipped (after : Bytes) : Bytes → Prop
  | nil : Skipped after []
  | blank {b : UInt8} {gap : Bytes} (hb : b ∈ Bytes.ofString " \t\r\n") (h : Skipped after gap) :
      Skipped after (b :: gap)
  /-- A number sign that begins no color, up to the end of its line. -/
  | hash {body gap : Bytes} (hcolor : colorDigits (body ++ gap ++ after) = 0) (hbody : 10 ∉ body)
      (hend : ∀ b ∈ (gap ++ after).head?, b = 10) (h : Skipped after gap) :
      Skipped after (Bytes.ofChar '#' :: body ++ gap)
  | line {body gap : Bytes} (hbody : 10 ∉ body) (hend : ∀ b ∈ (gap ++ after).head?, b = 10)
      (h : Skipped after gap) : Skipped after (Bytes.ofString "//" ++ body ++ gap)
  /-- A block comment ends at the first place where it can. -/
  | block {body gap : Bytes} (hbody : ¬ Bytes.ofString "*/" <:+: body ++ Bytes.ofString "*")
      (h : Skipped after gap) :
      Skipped after (Bytes.ofString "/*" ++ body ++ Bytes.ofString "*/" ++ gap)

/-- What starts with a character of a kind has a first byte of that kind. -/
theorem of_startsWith {p : Char → Bool} {bs : Bytes} (h : startsWith p bs = true) :
    ∃ b rest, bs = b :: rest ∧ p (Char.ofUInt8 b) = true := by
  cases bs with
  | nil => cases h
  | cons b rest => exact ⟨b, rest, rfl, h⟩

/-- A text is a run of bytes of a kind and what follows the run. -/
theorem exists_run (p : UInt8 → Bool) (bs : Bytes) :
    ∃ run rest, bs = run ++ rest ∧ bs.takeWhile p = run ∧
    (∀ b ∈ run, p b = true) ∧ ∀ b ∈ rest.head?, p b = false := by
  refine ⟨_, _, List.takeWhile_append_dropWhile.symm, rfl, fun b => List.mem_takeWhile_imp,
    fun b hb => ?_⟩
  have hfirst := List.head?_dropWhile_not p bs
  rw [Option.mem_def.1 hb] at hfirst
  exact hfirst

/-- A line ends before a newline or with the text. -/
theorem exists_line (bs : Bytes) : ∃ line rest, bs = line ++ rest ∧ lineLength bs = line.length ∧
    10 ∉ line ∧ (∀ b ∈ rest.head?, b = 10) ∧ ∀ a, Seam a rest := by
  obtain ⟨line, rest, hbs, hline, hall, hrest⟩ := exists_run (· ≠ 10) bs
  have hnewline : ∀ b ∈ rest.head?, b = 10 := fun b hb => by simpa using hrest b hb
  refine ⟨line, rest, hbs, by rw [lineLength, hline], fun hmem => by simpa using hall 10 hmem,
    hnewline, ?_⟩
  intro a x _ y hy
  exact .inr (hnewline y hy ▸ by decide)

/-- A comment ends at the first closing mark. -/
theorem commentLength_spec {bs : Bytes} {n : Nat} (h : commentLength bs = some n) :
    ∃ body rest, bs = body ++ Bytes.ofString "*/" ++ rest ∧ n = body.length + 2 ∧
      ¬ Bytes.ofString "*/" <:+: body ++ Bytes.ofString "*" := by
  have hend : Bytes.ofString "*/" = [42, 47] := rfl
  have hstar : Bytes.ofString "*" = [42] := rfl
  rw [hend, hstar]
  induction bs generalizing n with
  | nil => cases h
  | cons b bs ih =>
    unfold commentLength at h
    split at h
    · rename_i hends
      rw [Bool.and_eq_true, decide_eq_true_eq] at hends
      obtain ⟨rfl, hslash⟩ := hends
      obtain ⟨c, rest, rfl, hc⟩ := of_startsWith hslash
      obtain rfl : c = 47 := eq_ofChar (of_decide_eq_true hc)
      exact ⟨[], rest, rfl, (Option.some.inj h).symm, by decide⟩
    · rename_i hgoes
      obtain ⟨m, hm, rfl⟩ := Option.map_eq_some_iff.1 h
      obtain ⟨body, rest, rfl, rfl, hbody⟩ := ih hm
      refine ⟨b :: body, rest, rfl, rfl, ?_⟩
      rw [List.cons_append, List.infix_cons_iff]
      rintro (hfront | hlater)
      · -- the comment would have ended here
        refine hgoes ?_
        cases body with
        | nil => simp at hfront
        | cons c body =>
          simp only [List.cons_append, List.cons_prefix_cons] at hfront
          obtain ⟨rfl, rfl, -⟩ := hfront
          rfl
      · exact hbody hlater

/-- A piece is passed over as the first one of a gap, and does not end within a character. -/
structure Passes (piece rest : Bytes) : Prop where
  seam : Seam piece rest
  skipped : ∀ after gap, rest = gap ++ after → Skipped after gap → Skipped after (piece ++ gap)

namespace Passes

variable {b : UInt8} {bs : Bytes}

/-- A blank is passed. -/
theorem blank {c : Char} (hb : Char.ofUInt8 b = c)
    (hc : Bytes.ofChar c ∈ Bytes.ofString " \t\r\n") :
    Passes (b :: bs.take 0) (bs.drop 0) := by
  have hascii : ∀ x ∈ Bytes.ofString " \t\r\n", x < 0x80 := by decide +kernel
  obtain rfl := eq_ofChar hb
  exact ⟨Seam.after_ascii (a := []) (hascii _ hc), fun after gap _ hgap => .blank hc hgap⟩

/-- A number sign that begins no color. -/
theorem hash (hcolor : colorDigits bs = 0) :
    Passes (Bytes.ofChar '#' :: bs.take (lineLength bs)) (bs.drop (lineLength bs)) := by
  obtain ⟨line, rest, rfl, hlength, hline, hend, hseam⟩ := exists_line bs
  rw [hlength, List.take_left, List.drop_left]
  refine ⟨hseam _, fun after gap hgap hskipped => ?_⟩
  subst hgap
  exact .hash (by rwa [List.append_assoc]) hline hend hskipped

/-- Two slashes. -/
theorem line : Passes (Bytes.ofChar '/' :: (47 :: bs).take (lineLength (47 :: bs)))
    ((47 :: bs).drop (lineLength (47 :: bs))) := by
  obtain ⟨line, rest, rfl, hlength, hline, hend, hseam⟩ := exists_line bs
  have hall : lineLength (47 :: (line ++ rest)) = line.length + 1 := by
    rw [lineLength, List.takeWhile_cons, ← hlength]
    rfl
  rw [hall, List.take_succ_cons, List.drop_succ_cons, List.take_left, List.drop_left]
  refine ⟨hseam _, fun after gap hgap hskipped => ?_⟩
  subst hgap
  exact .line hline hend hskipped

/-- A block comment is passed. -/
theorem block {n : Nat} (h : commentLength bs = some n) :
    Passes (Bytes.ofChar '/' :: (42 :: bs).take (n + 1)) ((42 :: bs).drop (n + 1)) := by
  obtain ⟨body, rest, rfl, rfl, hbody⟩ := commentLength_spec h
  have hlength : (body ++ Bytes.ofString "*/").length = body.length + 2 := by
    rw [List.length_append]
    rfl
  rw [List.take_succ_cons, List.drop_succ_cons, ← hlength, List.take_left, List.drop_left]
  refine ⟨?_, fun after gap hgap hskipped => ?_⟩
  · -- the slash is the last byte
    have hslash : Bytes.ofChar '/' :: 42 :: (body ++ Bytes.ofString "*/") =
        (Bytes.ofChar '/' :: 42 :: (body ++ [42])) ++ [47] := by
      rw [List.cons_append, List.cons_append, List.append_assoc]
      rfl
    rw [hslash]
    exact Seam.after_ascii (by decide)
  · subst hgap
    have hskip := Skipped.block hbody hskipped
    simp only [List.append_assoc] at hskip
    simp only [List.cons_append, List.append_assoc]
    exact hskip

end Passes

/-- A gap is a blank or a comment. -/
theorem gap_spec {b : UInt8} {bs : Bytes} {more : Nat} (h : gap b bs = .ok (some more)) :
    Passes (b :: bs.take more) (bs.drop more) := by
  unfold gap at h
  split at h
  case h_1 hb | h_2 hb | h_3 hb | h_4 hb =>
    obtain rfl := Option.some.inj (Except.ok.inj h)
    exact .blank hb (by decide)
  case h_5 hb =>
    obtain rfl := eq_ofChar hb
    have h := Except.ok.inj h
    split at h
    · obtain rfl := Option.some.inj h
      exact .hash ‹_›
    · cases h
  case h_6 hb =>
    obtain rfl := eq_ofChar hb
    split at h
    · obtain rfl := Option.some.inj (Except.ok.inj h)
      exact .line
    · split at h
      · obtain rfl := Option.some.inj (Except.ok.inj h)
        exact .block ‹_›
      · cases h
    · cases h
  case h_7 => cases h

/-! ## the text of a token -/

/-- The text between the quotes of a string, and what it stands for: a backslash takes the
character after it. -/
inductive Unescapes (quote : UInt8) : Bytes → Bytes → Prop
  | nil : Unescapes quote [] []
  | plain {b : UInt8} {text contents : Bytes} (hquote : b ≠ quote) (hslash : b ≠ Bytes.ofChar '\\')
      (h : Unescapes quote text contents) : Unescapes quote (b :: text) (b :: contents)
  | escape {e : UInt8} {more text contents : Bytes} (hchar : ∃ rest,
      (Utf8.glyphAt e rest).bytes = e :: more)
      (h : Unescapes quote text contents) :
      Unescapes quote (Bytes.ofChar '\\' :: e :: more ++ text) (unescape e :: contents)

/-- The text of a token of a kind, with its lexeme. -/
inductive Spells : Bytes → TokenKind → Bytes → Prop
  | nothing : Spells [] .endOfInput []
  | verbatim {kind : TokenKind} {text : Bytes}
      (hkind : kind ≠ .endOfInput ∧ kind ≠ .string ∧ kind ≠ .closure) (htext : text ≠ []) :
      Spells text kind text
  | string {quote : UInt8} {text contents : Bytes} (hquote : quote ∈ Bytes.ofString "\"'")
      (h : Unescapes quote text contents) : Spells (quote :: text ++ [quote]) .string contents
  | closure {before between body : Bytes} (hbefore : ∀ b ∈ before, isBlank b = true)
      (hbetween : ∀ b ∈ between, isBlank b = true) (hbody : Text.trimSpaceBytes body ≠ []) :
      Spells (Bytes.ofChar '(' :: before ++ Bytes.ofChar ')' :: between ++ Bytes.ofString "=>" ++
        body) .closure
        (Text.trimSpaceBytes body)

/-- Only the empty text spells the end of input. -/
theorem Spells.ne_endOfInput {text lexeme : Bytes} {kind : TokenKind} (h : Spells text kind lexeme)
    (htext : text ≠ []) : kind ≠ .endOfInput := by
  cases h with
  | nothing => exact absurd rfl htext
  | verbatim hkind => exact hkind.1
  | string => decide
  | closure => decide

/-- A token of ASCII bytes that is its own text. -/
theorem verbatim_spec {kind : TokenKind}
    (hkind : kind ≠ .endOfInput ∧ kind ≠ .string ∧ kind ≠ .closure) {b : UInt8} {bs : Bytes}
    {size : Nat} (hsize : 0 < size) (hall : ∀ x ∈ (b :: bs).take size, x < 0x80) :
    Seam (b :: bs.take (Lexed.verbatim kind (b :: bs) size).more)
        (bs.drop (Lexed.verbatim kind (b :: bs) size).more) ∧
      Spells (b :: bs.take (Lexed.verbatim kind (b :: bs) size).more)
        (Lexed.verbatim kind (b :: bs) size).kind
        (Lexed.verbatim kind (b :: bs) size).lexeme := by
  obtain ⟨n, rfl⟩ := Nat.exists_eq_succ_of_ne_zero hsize.ne'
  refine ⟨.of_all hall, ?_⟩
  exact .verbatim hkind (List.cons_ne_nil _ _)

theorem digit_ascii {bs : Bytes} {x : UInt8} (h : x ∈ bs.take (runLength isDigit bs)) :
    x < 0x80 := by
  have hdigit : isDigit (Char.ofUInt8 x) = true := of_mem_run h
  exact (isNamePart_ascii x (by rw [isNamePart, hdigit, Bool.or_true])).1

/-- A fraction is made of single bytes. -/
theorem fraction_ascii {bs : Bytes} {x : UInt8} (h : x ∈ bs.take (fractionLength bs)) :
    x < 0x80 := by
  unfold fractionLength at h
  split at h
  · dsimp only at h
    split at h
    · simp at h
    · rw [Nat.add_comm, List.take_succ_cons] at h
      rcases List.mem_cons.1 h with rfl | h
      · decide
      · exact digit_ascii h
  · simp at h

/-- An exponent is made of single bytes. -/
theorem exponent_ascii {bs : Bytes} {x : UInt8} (h : x ∈ bs.take (exponentLength bs)) :
    x < 0x80 := by
  unfold exponentLength at h
  split at h
  · simp at h
  · rename_i e bs
    dsimp only at h
    by_cases he : (e = 101 || e = 69) = true
    · rw [if_pos he] at h
      have hletter : e < 0x80 := by
        simp only [Bool.or_eq_true, decide_eq_true_eq] at he
        rcases he with rfl | rfl <;> decide
      have hsign : ∀ x ∈ bs.take (if startsWith (fun c => c = '+' || c = '-') bs then 1 else 0),
          x < 0x80 := by
        intro x hx
        split at hx
        · rename_i hstart
          obtain ⟨s, rest, rfl, hs⟩ := of_startsWith hstart
          obtain rfl := List.mem_singleton.1 hx
          simp only [Bool.or_eq_true, decide_eq_true_eq] at hs
          rcases hs with hs | hs <;> rw [eq_ofChar hs] <;> decide
        · cases hx
      generalize (if startsWith (fun c => c = '+' || c = '-') bs then 1 else 0) = sign at h hsign
      split at h
      · cases h
      · rw [Nat.add_assoc, Nat.add_comm, List.take_succ_cons, List.take_add] at h
        rcases List.mem_cons.1 h with rfl | h
        · exact hletter
        · rcases List.mem_append.1 h with h | h
          · exact hsign x h
          · exact digit_ascii h
    · rw [if_neg he] at h
      cases h

/-- A number is made of single bytes. -/
theorem number_ascii {bs : Bytes} {x : UInt8} (h : x ∈ bs.take (numberLength bs)) : x < 0x80 := by
  unfold numberLength at h
  dsimp only at h
  rw [List.take_add, List.take_add, List.mem_append, List.mem_append] at h
  rcases h with (h | h) | h
  · exact digit_ascii h
  · exact fraction_ascii h
  · exact exponent_ascii h

theorem runLength_cons {p : Char → Bool} {b : UInt8} (bs : Bytes) (h : p (Char.ofUInt8 b) = true) :
    runLength p (b :: bs) = runLength p bs + 1 := by
  rw [runLength, List.takeWhile_cons, if_pos h, List.length_cons, runLength]

/-- What starts like a number has a number in front. -/
theorem numberLength_pos {b : UInt8} {bs : Bytes}
    (h : isDigit (Char.ofUInt8 b) = true ∨ Char.ofUInt8 b = '.' ∧ startsWith isDigit bs = true) :
    0 < numberLength (b :: bs) := by
  unfold numberLength
  dsimp only
  rcases h with h | ⟨h, hdigit⟩
  · rw [runLength_cons bs h]
    omega
  · obtain rfl := eq_ofChar h
    obtain ⟨d, rest, rfl, hd⟩ := of_startsWith hdigit
    have hrun : runLength isDigit (Bytes.ofChar '.' :: d :: rest) = 0 := rfl
    have hfraction : fractionLength (Bytes.ofChar '.' :: d :: rest) = 1 +
        (runLength isDigit rest + 1) := by
      change (if runLength isDigit (d :: rest) = 0 then 0 else 1 + runLength isDigit (d :: rest)) =
        _
      rw [runLength_cons rest hd, if_neg (Nat.succ_ne_zero _)]
    rw [hrun, List.drop_zero, hfraction]
    omega

/-- A string ends at the first closing quote and stands for its unescaped text. -/
theorem stringBody_spec {quote : UInt8} {bs contents : Bytes} {n : Nat}
    (h : stringBody quote bs = some (contents, n)) :
    ∃ text rest, bs = text ++ quote :: rest ∧ n = text.length + 1 ∧
    Unescapes quote text contents := by
  fun_induction stringBody quote bs generalizing contents n with
  | case1 => cases h
  | case2 bs =>
    obtain ⟨rfl, rfl⟩ := Prod.mk.inj (Option.some.inj h)
    exact ⟨[], bs, rfl, rfl, .nil⟩
  | case3 => cases h
  | case4 e es width hquote =>
    rename_i ih
    obtain ⟨⟨s, m⟩, hs, hsm⟩ := Option.map_eq_some_iff.1 h
    obtain ⟨rfl, rfl⟩ := Prod.mk.inj hsm
    obtain ⟨text, rest, htext, rfl, hun⟩ := ih hs
    obtain ⟨more, hbytes, htail⟩ := Utf8.exists_bytes_glyphAt e es
    have hwidth : width = more.length + 1 := by simp only [width, hbytes, List.length_cons]
    rw [hwidth, List.drop_succ_cons] at htext
    have hes : es = more ++ (text ++ quote :: rest) := by
      rw [← htext, List.prefix_iff_eq_append.1 htail]
    refine ⟨Bytes.ofChar '\\' :: e :: more ++ text, rest, ?_, ?_, .escape ⟨es, hbytes⟩ hun⟩
    · rw [hes, List.append_assoc]
      rfl
    · rw [hwidth, List.length_append, List.length_cons, List.length_cons]
      omega
  | case5 b bs hquote hslash ih =>
    obtain ⟨⟨s, m⟩, hs, hsm⟩ := Option.map_eq_some_iff.1 h
    obtain ⟨rfl, rfl⟩ := Prod.mk.inj hsm
    obtain ⟨text, rest, rfl, rfl, hun⟩ := ih hs
    exact ⟨b :: text, rest, rfl, rfl, .plain hquote hslash hun⟩

/-- The body of a closure ends before an ASCII byte, or with the text. -/
theorem closureBodyLength_spec (depth : Nat) (bs : Bytes) :
    ∀ b ∈ (bs.drop (closureBodyLength depth bs)).head?, b < 0x80 := by
  have hstop : ∀ {b : UInt8} {bs : Bytes} {c : Char}, Char.ofUInt8 b = c → Bytes.ofChar c < 0x80 →
      ∀ x ∈ ((b :: bs).drop 0).head?, x < 0x80 := by
    intro b bs c hb hc x hx
    obtain rfl := Option.some.inj hx
    exact eq_ofChar hb ▸ hc
  have hstep : ∀ {b : UInt8} {bs : Bytes} {k : Nat}, (∀ x ∈ (bs.drop k).head?, x < 0x80) →
      ∀ x ∈ ((b :: bs).drop (1 + k)).head?, x < 0x80 := by
    intro b bs k h
    rwa [Nat.add_comm, List.drop_succ_cons]
  fun_induction closureBodyLength depth bs with
  | case1 => simp
  | case2 b bs hb | case6 b bs hb | case8 b bs hb | case10 b bs hb | case12 b bs hb
      | case14 b bs hb =>
    exact hstop hb (by decide)
  | case3 depth b bs hb hdepth ih | case7 depth b bs hb hdepth ih | case9 depth b bs hb hdepth ih
  | case11 depth b bs hb hdepth ih | case13 depth b bs hb hdepth ih
      | case15 depth b bs hb hdepth ih =>
    exact hstep ih
  | case4 depth b bs hb ih | case5 depth b bs hb ih => exact hstep ih
  | case16 depth b bs hb n ih | case17 depth b bs hb n ih =>
    rw [Nat.add_assoc]
    exact hstep (by rwa [← List.drop_drop])
  | case18 => exact hstep ‹_›

/-- The head of a closure has blanks inside its parentheses and before its arrow only. -/
theorem closureHead?_spec {bs : Bytes} {n : Nat} (h : closureHead? bs = some n) :
    ∃ before between, bs = before ++ Bytes.ofChar ')' :: between ++ Bytes.ofString "=>" ++
      bs.drop n ∧
      bs.take n = before ++ Bytes.ofChar ')' :: between ++ Bytes.ofString "=>" ∧
      (∀ b ∈ before, isBlank b = true) ∧ ∀ b ∈ between, isBlank b = true := by
  obtain ⟨before, rest, rfl, hbefore, hblank, -⟩ := exists_run isBlank bs
  unfold closureHead? at h
  dsimp only at h
  rw [hbefore, List.drop_left] at h
  split at h
  · rename_i rest
    obtain ⟨between, after, rfl, hbetween, hblank', -⟩ := exists_run isBlank rest
    rw [hbetween, List.drop_left] at h
    split at h
    · rename_i after
      obtain rfl := Option.some.inj h
      have hsplit : before ++ 41 :: (between ++ 61 :: 62 :: after) =
          before ++ Bytes.ofChar ')' :: between ++ Bytes.ofString "=>" ++ after := by
        simp only [List.append_assoc, List.cons_append]
        rfl
      have hlength : before.length + 1 + between.length + 2 =
          (before ++ Bytes.ofChar ')' :: between ++ Bytes.ofString "=>").length := by
        have harrow : (Bytes.ofString "=>").length = 2 := rfl
        rw [List.length_append, List.length_append, List.length_cons, harrow]
        omega
      rw [hsplit, hlength, List.drop_left, List.take_left]
      exact ⟨before, between, rfl, rfl, hblank, hblank'⟩
    · cases h
  · cases h

/-- The token of a sign is a sign. -/
theorem ofSign?_spec {b : UInt8} {kind : TokenKind}
    (h : TokenKind.ofSign? (Char.ofUInt8 b) = some kind) :
    b < 0x80 ∧ kind ≠ .endOfInput ∧ kind ≠ .string ∧ kind ≠ .closure := by
  generalize hc : Char.ofUInt8 b = c at h
  rw [eq_ofChar hc]
  unfold TokenKind.ofSign? at h
  split at h <;> cases h <;> decide

/-- A bracket is one byte. -/
theorem bracket_spec {b : UInt8} {bs : Bytes} {l : Lexed} (h : lexeme b bs = .ok l)
    (hkind : l.kind ∈ [.lparen, .rparen, .lbrace, .rbrace]) : b < 0x80 ∧ l.lexeme = [b] := by
  unfold lexeme at h
  dsimp only at h
  split at h
  · obtain rfl := Except.ok.inj h
    simp [Lexed.verbatim] at hkind
  split at h
  · obtain rfl := Except.ok.inj h
    simp [Lexed.verbatim] at hkind
  split at h
  · split at h
    · obtain rfl := Except.ok.inj h
      simp at hkind
    · cases h
  split at h
  · unfold name at h
    dsimp only at h
    split at h
    · obtain rfl := Except.ok.inj h
      simp [Lexed.verbatim] at hkind
    · cases h
    · obtain rfl := Except.ok.inj h
      revert hkind
      dsimp only [Lexed.verbatim]
      split <;> simp
  split at h
  · rename_i hparen
    split at h
    · split at h
      · cases h
      · obtain rfl := Except.ok.inj h
        simp at hkind
    · obtain rfl := Except.ok.inj h
      exact ⟨eq_ofChar hparen ▸ by decide, rfl⟩
  split at h
  · rename_i kind hsign
    obtain rfl := Except.ok.inj h
    exact ⟨(ofSign?_spec hsign).1, rfl⟩
  · cases h

/-- The text of a name is made of names' characters, and its token is a surface or a word. -/
theorem name_spec {b : UInt8} {bs : Bytes} {l : Lexed}
    (hstart : isNameStart (Char.ofUInt8 b) = true) (h : name (b :: bs) = .ok l) :
    Seam (b :: bs.take l.more) (bs.drop l.more) ∧ Spells (b :: bs.take l.more) l.kind l.lexeme := by
  have hsize : 0 < runLength isNamePart (b :: bs) := by
    rw [runLength_cons bs (by rw [isNamePart, hstart, Bool.true_or])]
    exact Nat.succ_pos _
  have hall : ∀ x ∈ (b :: bs).take (runLength isNamePart (b :: bs)), x < 0x80 := fun x hx =>
    (isNamePart_ascii x (of_mem_run hx)).1
  unfold name at h
  dsimp only at h
  split at h
  · obtain rfl := Except.ok.inj h
    exact verbatim_spec (by decide) hsize hall
  · cases h
  · obtain rfl := Except.ok.inj h
    exact verbatim_spec (by split <;> decide) hsize hall

/-- A string with its quotes does not end within a character. -/
theorem string_spec {quote : UInt8} {bs contents : Bytes} {n : Nat}
    (hquote : quote ∈ Bytes.ofString "\"'") (h : stringBody quote bs = some (contents, n)) :
    Seam (quote :: bs.take n) (bs.drop n) ∧ Spells (quote :: bs.take n) .string contents := by
  obtain ⟨text, rest, rfl, rfl, hun⟩ := stringBody_spec h
  have hascii : ∀ x ∈ Bytes.ofString "\"'", x < 0x80 := by decide +kernel
  have hsplit : text ++ quote :: rest = text ++ [quote] ++ rest := by simp
  have hlength : text.length + 1 = (text ++ [quote]).length := by simp
  rw [hsplit, hlength, List.take_left, List.drop_left]
  exact ⟨Seam.after_ascii (a := quote :: text) (hascii quote hquote), .string hquote hun⟩

/-- Neither does a closure. -/
theorem closure_spec {bs : Bytes} {head size : Nat} (hhead : closureHead? bs = some head)
    (hsize : size = closureBodyLength 0 (bs.drop head))
    (hbody : Text.trimSpaceBytes ((bs.drop head).take size) ≠ []) :
    Seam (Bytes.ofChar '(' :: bs.take (head + size)) (bs.drop (head + size)) ∧
      Spells (Bytes.ofChar '(' :: bs.take (head + size)) .closure
        (Text.trimSpaceBytes ((bs.drop head).take size)) := by
  obtain ⟨before, between, -, htake, hbefore, hbetween⟩ := closureHead?_spec hhead
  have hend := closureBodyLength_spec 0 (bs.drop head)
  rw [← hsize] at hend
  rw [List.take_add, htake, ← List.drop_drop]
  refine ⟨fun x _ y hy => .inr (hend y hy), ?_⟩
  have hspells := Spells.closure hbefore hbetween hbody
  simpa only [List.append_assoc, List.cons_append] using hspells

/-- The text of a token is one of its kind, and does not end within a character. -/
theorem lexeme_spec {b : UInt8} {bs : Bytes} {l : Lexed} (h : lexeme b bs = .ok l) :
    Seam (b :: bs.take l.more) (bs.drop l.more) ∧ Spells (b :: bs.take l.more) l.kind l.lexeme := by
  unfold lexeme at h
  dsimp only at h
  split at h
  · rename_i hsign
    obtain rfl := Except.ok.inj h
    refine verbatim_spec (by decide) (by omega) fun x hx => ?_
    rw [Nat.add_comm, List.take_succ_cons] at hx
    rcases List.mem_cons.1 hx with rfl | hx
    · exact sign_ascii x hsign
    · exact (isNamePart_ascii x (isNamePart_of_isHex ((spelled_color bs).1 x hx))).1
  split at h
  · rename_i hdigit
    obtain rfl := Except.ok.inj h
    exact verbatim_spec (by decide) (numberLength_pos (by simpa using hdigit)) fun x => number_ascii
  split at h
  · rename_i hquote
    have hmem : b ∈ Bytes.ofString "\"'" := by
      rw [Bool.or_eq_true, decide_eq_true_eq, decide_eq_true_eq] at hquote
      rcases hquote with hb | hb <;> rw [eq_ofChar hb] <;> decide
    split at h
    · obtain rfl := Except.ok.inj h
      exact string_spec hmem ‹_›
    · cases h
  split at h
  · rename_i hname
    exact name_spec hname h
  split at h
  · rename_i hparen
    obtain rfl := eq_ofChar hparen
    split at h
    · rename_i head hhead
      split at h
      · cases h
      · rename_i hbody
        obtain rfl := Except.ok.inj h
        exact closure_spec hhead rfl (by simpa using hbody)
    · obtain rfl := Except.ok.inj h
      exact ⟨Seam.of_all (by simp; decide), .verbatim (by decide) (List.cons_ne_nil _ _)⟩
  split at h
  · rename_i kind hkind
    obtain rfl := Except.ok.inj h
    obtain ⟨hascii, hkinds⟩ := ofSign?_spec hkind
    exact ⟨Seam.of_all (by simpa using hascii), .verbatim hkinds (List.cons_ne_nil _ _)⟩
  · cases h

/-! ## the stretches of a source -/

/-- Some blanks and comments, and the token behind them. -/
structure Stretch where
  gap : Bytes
  text : Bytes
  token : Token

namespace Stretch

def bytes (s : Stretch) : Bytes := s.gap ++ s.text

/-- The stretches of a text that stands behind `passed`. -/
inductive Tiled : Bytes → Bytes → List Stretch → Prop
  | last {passed gap : Bytes} (hgap : Skipped [] gap) :
      Tiled passed gap [⟨gap, [], ⟨.endOfInput, [], Pos.behind (passed ++ gap)⟩⟩]
  | cons {passed gap text lexeme rest : Bytes} {kind : TokenKind} {ss : List Stretch}
      (hgap : Skipped (text ++ rest) gap) (hkind : kind ≠ .endOfInput)
        (hspells : Spells text kind lexeme)
      (hseam : Seam (passed ++ gap) (text ++ rest)) (h : Tiled (passed ++ gap ++ text) rest ss) :
      Tiled passed (gap ++ text ++ rest)
        (⟨gap, text, ⟨kind, lexeme, Pos.behind (passed ++ gap)⟩⟩ :: ss)

/-- What is passed over before a gap is part of the gap. -/
theorem Tiled.extend {passed piece rest : Bytes} {ss : List Stretch}
    (h : Tiled (passed ++ piece) rest ss)
    (hpiece : ∀ after gap, rest = gap ++ after → Skipped after gap → Skipped after (piece ++ gap)) :
    ∃ ss', Tiled passed (piece ++ rest) ss' ∧ ss'.map token = ss.map token := by
  cases h with
  | last hgap =>
    rw [List.append_assoc]
    exact ⟨_, .last (hpiece _ _ (List.append_nil rest).symm hgap), rfl⟩
  | @cons _ gap text lexeme rest kind ss hgap hkind hspells hseam h =>
    rw [List.append_assoc passed] at hseam h ⊢
    rw [← List.append_assoc piece, ← List.append_assoc piece]
    exact ⟨_, .cons (hpiece _ _ (List.append_assoc ..) hgap) hkind hspells hseam h, rfl⟩

/-- The stretches of a tiled text are the text. -/
theorem Tiled.flatMap_bytes {passed rest : Bytes} {ss : List Stretch} (h : Tiled passed rest ss) :
    ss.flatMap bytes = rest := by
  induction h with
  | last => simp [bytes]
  | cons hgap hkind hspells hseam h ih =>
    rw [List.flatMap_cons, ih]
    rfl

/-- One token ends the input, the last one. -/
theorem Tiled.exists_concat {passed rest : Bytes} {ss : List Stretch} (h : Tiled passed rest ss) :
    ∃ (ts : List Token) (last : Token), ss.map token = ts ++ [last] ∧ last.kind = .endOfInput ∧
      ∀ t ∈ ts, t.kind ≠ .endOfInput := by
  induction h with
  | last hgap => exact ⟨[], _, rfl, rfl, by simp⟩
  | cons hgap hkind hspells hseam h ih =>
    obtain ⟨ts, last, hss, hlast, hts⟩ := ih
    exact ⟨_ :: ts, last, congrArg (_ :: ·) hss, hlast, List.forall_mem_cons.2 ⟨hkind, hts⟩⟩

/-- The stretch at any place: what it is made of, and where its token stands. -/
theorem Tiled.split {passed rest : Bytes} {ss : List Stretch} (h : Tiled passed rest ss)
    {before after : List Stretch} {s : Stretch} (hss : ss = before ++ s :: after) :
    Skipped (s.text ++ after.flatMap bytes) s.gap ∧ Spells s.text s.token.kind s.token.lexeme ∧
      s.token.pos = Pos.behind (passed ++ (before.flatMap bytes ++ s.gap)) ∧
      Seam (passed ++ (before.flatMap bytes ++ s.gap)) (s.text ++ after.flatMap bytes) ∧
      (s.token.kind = .endOfInput ↔ after = []) := by
  induction h generalizing before with
  | @last passed gap hgap =>
    cases before with
    | nil =>
      obtain ⟨rfl, rfl⟩ := List.cons.inj hss
      exact ⟨hgap, .nothing, rfl, Seam.nil _, by simp⟩
    | cons x before => simp at hss
  | @cons passed gap text lexeme rest kind ss hgap hkind hspells hseam h ih =>
    cases before with
    | nil =>
      obtain ⟨rfl, rfl⟩ := List.cons.inj hss
      rw [h.flatMap_bytes]
      have hmore : ss ≠ [] := by cases h <;> exact List.cons_ne_nil _ _
      exact ⟨hgap, hspells, rfl, hseam, fun hend => absurd hend hkind,
        fun hnil => absurd hnil hmore⟩
    | cons x before =>
      obtain ⟨rfl, hrest⟩ := List.cons.inj hss
      have hbehind := ih hrest
      simp only [List.append_assoc] at hbehind
      simpa only [List.flatMap_cons, bytes, List.append_assoc] using hbehind

end Stretch

/-- The error is at a place between the characters of a text that stands behind `passed`. -/
def FailsIn (passed text : Bytes) (e : SyntaxError) : Prop :=
  ∃ skipped rest, text = skipped ++ rest ∧ rest ≠ [] ∧ Seam (passed ++ skipped) rest ∧
    e.pos = Pos.behind (passed ++ skipped) ∧ e.source = []

theorem FailsIn.here {passed text : Bytes} (htext : text ≠ []) (hseam : Seam passed text)
    (cause : SyntaxCause) :
    FailsIn passed text ⟨cause, Pos.behind passed, []⟩ :=
  ⟨[], text, rfl, htext, by rwa [List.append_nil], by rw [List.append_nil], rfl⟩

/-- An error further on is an error of the text. -/
theorem FailsIn.extend {passed piece text : Bytes} {e : SyntaxError}
    (h : FailsIn (passed ++ piece) text e) :
    FailsIn passed (piece ++ text) e := by
  obtain ⟨skipped, rest, rfl, hrest, hseam, hpos, he⟩ := h
  rw [List.append_assoc] at hseam hpos
  exact ⟨piece ++ skipped, rest, (List.append_assoc ..).symm, hrest, hseam, hpos, he⟩

/-- The cursor behind a piece that does not end within a character. -/
theorem Cursor.advance_spec {c : Cursor} {passed bs : Bytes} {b : UInt8} {n : Nat}
    (hrest : c.rest = b :: bs) (hpos : c.pos = Pos.behind passed) (hseam : Seam passed c.rest)
    (hcut : Seam (b :: bs.take n) (bs.drop n)) :
    c.rest = b :: bs.take n ++ (c.advance (n + 1)).rest ∧ (c.advance (n + 1)).rest = bs.drop n ∧
      (c.advance (n + 1)).pos = Pos.behind (passed ++ b :: bs.take n) ∧
      Seam (passed ++ b :: bs.take n) (c.advance (n + 1)).rest := by
  have hsplit : c.rest = b :: bs.take n ++ bs.drop n := by
    rw [hrest, List.cons_append, List.take_append_drop]
  have hadvance : c.advance (n + 1) = ⟨c.pos.past (b :: bs.take n), bs.drop n⟩ := by
    rw [Cursor.advance, hrest, List.take_succ_cons, List.drop_succ_cons]
  rw [hadvance]
  refine ⟨hsplit, rfl, ?_, hcut.append_left (List.cons_ne_nil _ _) passed⟩
  have hbefore : Seam passed (b :: bs.take n) :=
    hseam.mono List.suffix_rfl (hsplit ▸ List.prefix_append _ _)
  rw [hpos, ← Pos.past_start, ← Pos.past_start, Pos.past_append hbefore]

/-- From a place between characters on, a text is made of stretches, or the error is at such a
place. -/
theorem tokensFrom_spec (c : Cursor) {passed : Bytes} (hpos : c.pos = Pos.behind passed)
    (hseam : Seam passed c.rest) :
    (∀ ts, tokensFrom c = .ok ts → ∃ ss, Stretch.Tiled passed c.rest ss ∧
      ss.map Stretch.token = ts) ∧
      ∀ e, tokensFrom c = .error e → FailsIn passed c.rest e := by
  fun_induction tokensFrom c generalizing passed with
  | case1 c hrest =>
    refine ⟨fun ts hts => ?_, by simp⟩
    obtain rfl := Except.ok.inj hts
    rw [hrest]
    refine ⟨_, .last .nil, ?_⟩
    rw [List.append_nil, ← hpos]
    rfl
  | case2 c b bs hrest cause hgap =>
    refine ⟨by simp, fun e he => ?_⟩
    obtain rfl := Except.error.inj he
    exact hpos ▸ .here (hrest ▸ List.cons_ne_nil _ _) hseam cause
  | case3 c b bs hrest more hgap ih =>
    obtain ⟨hcut, hextend⟩ := gap_spec hgap
    obtain ⟨hsplit, hnext, hpos', hseam'⟩ := Cursor.advance_spec hrest hpos hseam hcut
    obtain ⟨hok, herror⟩ := ih hpos' hseam'
    rw [hsplit]
    refine ⟨fun ts hts => ?_, fun e he => (herror e he).extend⟩
    obtain ⟨ss, htiled, rfl⟩ := hok ts hts
    exact htiled.extend fun after gap hgap => hextend after gap (hnext ▸ hgap)
  | case4 c b bs hrest hgap cause hl =>
    refine ⟨by simp, fun e he => ?_⟩
    obtain rfl := Except.error.inj he
    exact hpos ▸ .here (hrest ▸ List.cons_ne_nil _ _) hseam cause
  | case5 c b bs hrest hgap l hl ih =>
    obtain ⟨hcut, hspells⟩ := lexeme_spec hl
    obtain ⟨hsplit, hnext, hpos', hseam'⟩ := Cursor.advance_spec hrest hpos hseam hcut
    obtain ⟨hok, herror⟩ := ih hpos' hseam'
    have hkind := hspells.ne_endOfInput (List.cons_ne_nil _ _)
    cases hmore : tokensFrom (c.advance (l.more + 1)) with
    | error e =>
      refine ⟨(fun _ h => by cases h), fun e' he => ?_⟩
      obtain rfl := Except.error.inj he
      rw [hsplit]
      exact (herror e hmore).extend
    | ok more =>
      refine ⟨fun ts hts => ?_, (fun _ h => by cases h)⟩
      obtain rfl := Except.ok.inj hts
      obtain ⟨ss, htiled, rfl⟩ := hok more hmore
      rw [hsplit, hpos]
      rw [hsplit] at hseam
      have hcons :=
        @Stretch.Tiled.cons passed [] _ _ _ _ _ .nil hkind hspells (by rwa [List.append_nil])
        (by rwa [List.append_nil])
      rw [List.append_nil, List.nil_append] at hcons
      exact ⟨_, hcons, rfl⟩

end Lexer

/-- The word of a bracket is one character. -/
theorem Token.length_bracket {source : Bytes} {ts : List Token} (h : scan source = .ok ts) :
    ∀ t ∈ ts, t.kind ∈ [.lparen, .rparen, .lbrace, .rbrace] → t.word.length = 1 := by
  refine forall_scan (fun pos hkind => absurd hkind (by simp)) (fun b bs l pos hl hkind => ?_) h
  obtain ⟨hascii, hlexeme⟩ := Lexer.bracket_spec hl hkind
  have hall : ∀ x ∈ [b], x < 0x80 := by simpa using hascii
  dsimp only [Token.word, Bytes.toString]
  rw [hlexeme, Utf8.decode_ascii hall]
  simp

/-- The start of a source is at the first line and column. -/
theorem Lexer.start_spec (source : Bytes) :
    (⟨.start, source⟩ : Cursor).pos = Pos.behind [] ∧ Seam [] source := by
  refine ⟨?_, by simp [Seam]⟩
  rw [← Pos.past_start, Pos.past, Utf8.decode, Utf8.glyphs_nil]
  rfl

/-- One token ends the input, the last one. -/
theorem Token.scan_concat {source : Bytes} {ts : List Token} (h : scan source = .ok ts) :
    ∃ (init : List Token) (last : Token), ts = init ++ [last] ∧ last.kind = .endOfInput ∧
      ∀ t ∈ init, t.kind ≠ .endOfInput := by
  obtain ⟨hpos, hseam⟩ := Lexer.start_spec source
  obtain ⟨ss, htiled, rfl⟩ := (Lexer.tokensFrom_spec _ hpos hseam).1 ts h
  exact htiled.exists_concat

open Lexer in
/-- The tokens of a source tile it: the source is made of stretches, each some blanks and comments
and then the text of a token, and a token is at the line and the column of the offset where
its text starts.  A source without tokens has its error at such an offset before its end, and
parsing it shows the line of the error with a caret at most one past the end of the line. -/
theorem Token.scan_tiles (source : Bytes) :
    match scan source with
    | .ok ts =>
      ∃ stretches : List Stretch, stretches.map Stretch.token = ts ∧
        stretches.flatMap Stretch.bytes = source ∧
        ∀ before s after, stretches = before ++ s :: after →
          Skipped (s.text ++ after.flatMap Stretch.bytes) s.gap ∧
            Spells s.text s.token.kind s.token.lexeme ∧
            (s.token.kind = .endOfInput ↔ after = []) ∧
            s.token.pos =
              Pos.ofOffset source ((before.flatMap Stretch.bytes).length + s.gap.length) ∧
            Utf8.IsBoundary source ((before.flatMap Stretch.bytes).length + s.gap.length)
    | .error e =>
      (∃ k < source.length, e.pos = Pos.ofOffset source k ∧ Utf8.IsBoundary source k) ∧
        ∀ options, ∃ e', Program.parse options source = .error e' ∧ e'.cause = e.cause ∧
          e'.pos = e.pos ∧
          e'.source = source ∧ ∃ line, (SyntaxError.linesOf source)[e'.pos.line - 1]? = some line ∧
            e'.pos.col ≤ (Bytes.toString line).length + 1 ∧
            e'.snippet = "  " ++ toString e'.pos.line ++ " | " ++ Bytes.toString line ++ "\n" ++
              String.ofList (List.replicate ((toString e'.pos.line).length + 5 + (e'.pos.col - 1))
                  ' ') ++ "^\n" := by
  obtain ⟨hstart, hfirst⟩ := Lexer.start_spec source
  obtain ⟨hok, herror⟩ := tokensFrom_spec _ hstart hfirst
  split
  · rename_i ts hts
    obtain ⟨stretches, htiled, htokens⟩ := hok ts hts
    refine ⟨stretches, htokens, htiled.flatMap_bytes, fun before s after hsplit => ?_⟩
    obtain ⟨hgap, hspells, hpos, hseam, hend⟩ := htiled.split hsplit
    have hsource : before.flatMap Stretch.bytes ++ s.gap ++
        (s.text ++ after.flatMap Stretch.bytes) = source := by
      have hall := htiled.flatMap_bytes
      simpa [hsplit, Stretch.bytes] using hall
    rw [List.nil_append] at hpos hseam
    rw [← List.length_append, ← hsource, Pos.ofOffset_length]
    exact ⟨hgap, hspells, hend, hpos, hseam.isBoundary⟩
  · rename_i e he
    obtain ⟨skipped, rest, hsource, hrest, hseam, hpos, hnone⟩ := herror e he
    obtain rfl : source = skipped ++ rest := hsource
    rw [List.nil_append] at hseam hpos
    have hlength : skipped.length < (skipped ++ rest).length := by
      rw [List.length_append]
      exact Nat.lt_add_of_pos_right (List.length_pos_iff.2 hrest)
    refine ⟨⟨_, hlength, by rw [hpos, Pos.ofOffset_length], hseam.isBoundary⟩, fun options => ?_⟩
    have hparse : Program.parse options (skipped ++ rest) =
        .error (e.withSource (skipped ++ rest)) := by
      rw [Program.parse, he]
      rfl
    have hwith : e.withSource (skipped ++ rest) = { e with source := skipped ++ rest } := by
      rw [SyntaxError.withSource, hnone]
      rfl
    rw [hwith] at hparse
    exact ⟨_, hparse, rfl, rfl, rfl,
      SyntaxError.snippet_at (e := { e with source := skipped ++ rest }) hseam (by simp [hrest])
        hpos rfl⟩

end EffectChain
