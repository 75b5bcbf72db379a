import EffectChain.Program.Parser
import EffectChain.Proofs.Program.Spelling
import EffectChain.Proofs.Source.Position
import EffectChain.Proofs.Text.Utf8

/-!
# EffectChain.Proofs.Program.Literal

Texts that are read as a single literal.

A text that is one token wherever it stands is a token of the source it stands in
(`Lexer.tokensFrom_token`); the texts of strings (`Lexer.StandsFor`), of names
(`Lexer.IsName`) and of decimal numbers are such.  An expression of one such token ends where
no operator follows, so that in the place of an argument it is the argument
(`Parser.ReadAs`).
-/

namespace EffectChain

/-- A text of ASCII characters has a byte for each. -/
theorem Utf8.map_encode_ascii {cs : List Char} (h : ∀ c ∈ cs, c.toNat < 0x80) :
    (encode cs).map Char.ofUInt8 = cs := by
  have hbytes : ∀ b ∈ encode cs, b < 0x80 := by
    intro b hb
    obtain ⟨c, hc, hb⟩ := List.mem_flatMap.1 hb
    have hlt := h c hc
    rcases utf8EncodeChar_cases c with ⟨-, hone⟩ | ⟨hge, -⟩ | ⟨hge, -⟩ | ⟨hge, -⟩
    · rw [hone, List.mem_singleton] at hb
      rw [hb, UInt8.lt_iff_toNat_lt, toNat_ofNat_byte (by omega)]
      exact hlt
    all_goals omega
  rw [← decode_ascii hbytes, decode_encode]

@[simp] theorem Token.word_ofString (kind : TokenKind) (n : String) (pos : Pos) :
    (⟨kind, Bytes.ofString n, pos⟩ : Token).word = n := by
  rw [Token.word, Bytes.toString, Bytes.ofString, Utf8.decode_encode, String.ofList_toList]

namespace Lexer

/-! ## one token -/

/-- A token at the front of a text is the first one of the text. -/
theorem tokensFrom_token {b : UInt8} {bs after lex : Bytes} {kind : TokenKind} (pos : Pos)
    (hgap : gap b (bs ++ after) = .ok none)
    (hl : lexeme b (bs ++ after) = .ok ⟨kind, lex, bs.length⟩) :
    tokensFrom ⟨pos, b :: bs ++ after⟩ =
      (tokensFrom ⟨pos.past (b :: bs), after⟩).map (⟨kind, lex, pos⟩ :: ·) := by
  have hadvance : (⟨pos, b :: bs ++ after⟩ : Cursor).advance (bs.length + 1) =
      ⟨pos.past (b :: bs), after⟩ := by
    simp [Cursor.advance]
  rw [tokensFrom]
  split
  · rename_i h
    exact absurd h (by simp)
  · rename_i c cs h
    obtain ⟨rfl, rfl⟩ : b = c ∧ bs ++ after = cs := by simpa using h
    simp only [hgap, hl, hadvance]

/-- The text is one token, whatever stands behind it that has the property. -/
def Scans (ends : Bytes → Prop) (text : Bytes) (kind : TokenKind) (lex : Bytes) : Prop :=
  ∀ pos after, ends after →
    tokensFrom ⟨pos, text ++ after⟩ = (tokensFrom ⟨pos.past text, after⟩).map
      (⟨kind, lex, pos⟩ :: ·)

theorem Scans.mono {ends ends' : Bytes → Prop} {text lex : Bytes} {kind : TokenKind}
    (h : Scans ends text kind lex) (hends : ∀ after, ends' after → ends after) :
    Scans ends' text kind lex :=
  fun pos after hafter => h pos after (hends after hafter)

/-! ## strings -/

/-- The text stands for the contents, wherever it is in a string. -/
def StandsFor (quote : UInt8) (text contents : Bytes) : Prop :=
  ∀ rest, stringBody quote (text ++ rest) =
    (stringBody quote rest).map fun (s, n) => (contents ++ s, n + text.length)

namespace StandsFor

variable {quote b e : UInt8} {text text' contents contents' : Bytes}

theorem nil : StandsFor quote [] [] := fun rest => by
  simp [Option.map_id']

/-- Two texts side by side stand for what each stands for. -/
theorem append (h : StandsFor quote text contents) (h' : StandsFor quote text' contents') :
    StandsFor quote (text ++ text') (contents ++ contents') := by
  intro rest
  rw [List.append_assoc, h, h', Option.map_map]
  congr 1
  funext ⟨s, n⟩
  simp only [Function.comp_apply, List.append_assoc, List.length_append, Prod.mk.injEq, true_and]
  omega

/-- A byte that is neither the quote nor a backslash stands for itself. -/
theorem plain (hquote : b ≠ quote) (hslash : b ≠ 92) : StandsFor quote [b] [b] := by
  intro rest
  rw [List.singleton_append, stringBody.eq_def]
  dsimp only
  rw [if_neg hquote, if_neg hslash]
  rfl

/-- A backslash takes the ASCII character behind it. -/
theorem escape (hquote : quote ≠ 92) (he : e < 0x80) : StandsFor quote [92, e] [unescape e] := by
  intro rest
  have hglyph : (Utf8.glyphAt e rest).bytes = [e] := by
    unfold Utf8.glyphAt
    rw [if_pos he]
    rfl
  rw [List.cons_append, List.singleton_append, stringBody.eq_def]
  dsimp only
  rw [if_neg hquote.symm, if_pos rfl, hglyph]
  rfl

/-- A text without quotes and backslashes stands for itself. -/
theorem verbatim (hquote : quote ∉ text) (hslash : 92 ∉ text) : StandsFor quote text text := by
  induction text with
  | nil => exact .nil
  | cons b text ih =>
    rw [List.mem_cons, not_or] at hquote hslash
    exact .append (.plain (Ne.symm hquote.1) (Ne.symm hslash.1)) (ih hquote.2 hslash.2)

/-- Piecewise written texts stand for what the pieces stand for. -/
theorem flatMap {α : Type} {written : α → Bytes} {meant : α → Bytes} {xs : List α}
    (h : ∀ x ∈ xs, StandsFor quote (written x) (meant x)) :
    StandsFor quote (xs.flatMap written) (xs.flatMap meant) := by
  induction xs with
  | nil => exact .nil
  | cons x xs ih => exact .append (h x (by simp)) (ih fun y hy => h y (List.mem_cons_of_mem x hy))

/-- A closed text is read as what it stands for. -/
theorem closed (h : StandsFor quote text contents) (after : Bytes) :
    stringBody quote (text ++ quote :: after) = some (contents, text.length + 1) := by
  have hend : stringBody quote (quote :: after) = some ([], 1) := by
    rw [stringBody.eq_def]
    exact if_pos rfl
  rw [h, hend, Option.map_some]
  dsimp only
  rw [List.append_nil, Nat.add_comm]

/-- Between quotes it is a string, whatever stands behind it. -/
theorem scans (hquote : quote ∈ Bytes.ofString "\"'") (h : StandsFor quote text contents) :
    Scans (fun _ => True) (quote :: text ++ [quote]) .string contents := by
  intro pos after _
  have hbody := h.closed after
  have hlexeme : ∀ {bs n}, stringBody quote bs = some (contents, n) →
      gap quote bs = .ok none ∧ lexeme quote bs = .ok ⟨.string, contents, n⟩ := by
    intro bs n hbs
    obtain rfl | rfl : quote = 34 ∨ quote = 39 := by
      simpa [show Bytes.ofString "\"'" = [34, 39] by rfl] using hquote
    all_goals exact ⟨rfl, by unfold lexeme; rw [hbs]; rfl⟩
  have hbody : stringBody quote ((text ++ [quote]) ++ after) =
      some (contents, (text ++ [quote]).length) := by
    simpa using h.closed after
  obtain ⟨hnone, hlexeme⟩ := hlexeme hbody
  exact tokensFrom_token pos hnone hlexeme

end StandsFor

/-! ## names and numbers -/

/-- A comma or a closing parenthesis stands there. -/
def EndsArgument (after : Bytes) : Prop := ∃ b rest, after = b :: rest ∧ (b = 44 ∨ b = 41)

/-- No name goes on there. -/
def EndsWord (after : Bytes) : Prop := ∀ b ∈ after.head?, isNamePart (Char.ofUInt8 b) = false

/-- Neither a name nor a number goes on there. -/
def EndsNumber (after : Bytes) : Prop :=
  ∀ b ∈ after.head?, isNamePart (Char.ofUInt8 b) = false ∧ b ≠ 46

theorem EndsNumber.endsWord {after : Bytes} (h : EndsNumber after) : EndsWord after :=
  fun b hb => (h b hb).1

theorem EndsArgument.endsNumber {after : Bytes} (h : EndsArgument after) : EndsNumber after := by
  obtain ⟨b, rest, rfl, hb⟩ := h
  have hsign : ∀ b : UInt8, b = 44 ∨ b = 41 → isNamePart (Char.ofUInt8 b) = false ∧ b ≠ 46 := by
    rintro b (rfl | rfl) <;> decide
  intro x hx
  obtain rfl := Option.some.inj hx
  exact hsign _ hb

theorem EndsArgument.endsWord {after : Bytes} (h : EndsArgument after) : EndsWord after :=
  h.endsNumber.endsWord

theorem not_isDigit_of_not_isNamePart {c : Char} (h : isNamePart c = false) :
    isDigit c = false := by
  rw [isNamePart, Bool.or_eq_false_iff] at h
  exact h.2

/-- A run goes on to the end of the text, and no further. -/
theorem runLength_append {p : Char → Bool} {bs after : Bytes}
    (h : ∀ b ∈ bs, p (Char.ofUInt8 b) = true)
    (hafter : ∀ b ∈ after.head?, p (Char.ofUInt8 b) = false) :
    runLength p (bs ++ after) = bs.length := by
  have hrest : after.takeWhile (fun b => p (Char.ofUInt8 b)) = [] := by
    cases after with
    | nil => rfl
    | cons b rest => simp [hafter b rfl]
  rw [runLength, List.takeWhile_append_of_pos h, hrest, List.append_nil]

/-- The word is spelled as a name. -/
structure IsWord (n : String) : Prop where
  start : ∃ c cs, n.toList = c :: cs ∧ isNameStart c = true
  part : ∀ c ∈ n.toList, isNamePart c = true

/-- The word is a name, and neither reserved nor a surface. -/
structure IsName (n : String) : Prop extends IsWord n where
  surface : surfaceWord? n.toList = none
  keyword : isKeyword n = false

/-- A part of a name is one byte. -/
theorem lt_of_isNamePart {c : Char} (h : isNamePart c = true) : c.toNat < 0x80 := by
  have hle : ∀ d : Char, c ≤ d → c.toNat ≤ d.toNat := fun d => id
  simp only [isNamePart, isNameStart, isDigit, Bool.or_eq_true, Bool.and_eq_true, decide_eq_true_eq]
    at h
  rcases h with ((rfl | h) | h) | h
  · decide
  all_goals exact Nat.lt_of_le_of_lt (hle _ h.2) (by decide)

theorem not_isDigit_of_isNameStart {b : UInt8} (h : isNameStart (Char.ofUInt8 b) = true) :
    isDigit (Char.ofUInt8 b) = false := by
  revert h
  obtain ⟨⟨n⟩⟩ := b
  revert n
  decide +kernel

/-- What begins with a letter or an underscore is a name. -/
theorem name_start {b : UInt8} (h : isNameStart (Char.ofUInt8 b) = true) (bs : Bytes) :
    gap b bs = .ok none ∧ lexeme b bs = name (b :: bs) := by
  have hdigit := not_isDigit_of_isNameStart h
  have hnone : ∀ c ∈ [' ', '\t', '\r', '\n', '#', '/', '"', '\'', '.'], isNameStart c = false := by
    simp [isNameStart]
  have hother : ∀ c ∈ [' ', '\t', '\r', '\n', '#', '/', '"', '\'', '.'], Char.ofUInt8 b ≠ c := by
    intro c hc heq
    rw [heq, hnone c hc] at h
    cases h
  constructor
  · unfold gap
    split <;> simp_all
  · unfold lexeme
    simp_all

/-- The bytes of a word are its characters, and the first one begins a name. -/
theorem IsWord.bytes {n : String} (h : IsWord n) : (Bytes.ofString n).map Char.ofUInt8 = n.toList ∧
    ∃ b bs, Bytes.ofString n = b :: bs ∧ isNameStart (Char.ofUInt8 b) = true := by
  have hchars : (Bytes.ofString n).map Char.ofUInt8 = n.toList :=
    Utf8.map_encode_ascii fun c hc => lt_of_isNamePart (h.part c hc)
  obtain ⟨c, cs, hn, hstart⟩ := h.start
  cases hb : Bytes.ofString n with
  | nil => simp [hb, hn] at hchars
  | cons b bs =>
    refine ⟨by rw [← hchars, hb], b, bs, rfl, ?_⟩
    rw [hb, hn] at hchars
    rw [(List.cons.inj hchars).1]
    exact hstart

/-- A word ends where no name goes on. -/
theorem lexeme_word {n : String} (h : IsWord n) {after : Bytes} (hafter : EndsWord after) :
    ∃ b bs, Bytes.ofString n = b :: bs ∧ gap b (bs ++ after) = .ok none ∧ lexeme b (bs ++ after) =
      match surfaceWord? n.toList with
      | some (_, _, true) => .ok ⟨.surface, b :: bs, bs.length⟩
      | some (_, _, false) => .error (.invalidSurface n)
      | none => .ok ⟨if isKeyword n then .keyword else .identifier, b :: bs, bs.length⟩ := by
  obtain ⟨hchars, b, bs, hbytes, hfirst⟩ := h.bytes
  obtain ⟨hgap, hlexeme⟩ := name_start hfirst (bs ++ after)
  have hsize : runLength isNamePart (b :: (bs ++ after)) = bs.length + 1 := by
    rw [← List.cons_append, ← hbytes, runLength_append _ hafter, hbytes, List.length_cons]
    intro x hx
    exact h.part _ (hchars ▸ List.mem_map_of_mem hx)
  have htake : (b :: (bs ++ after)).take (bs.length + 1) = b :: bs := by
    rw [List.take_succ_cons, List.take_left]
  refine ⟨b, bs, hbytes, hgap, ?_⟩
  rw [hlexeme, name]
  rcases hword : surfaceWord? n.toList with _ | ⟨_, _, _ | _⟩ <;>
    simp only [hsize, htake, ← hbytes, hchars, hword, String.ofList_toList, Lexed.verbatim,
      Nat.add_sub_cancel]

/-- A name that ends where an argument ends is scanned as a name. -/
theorem scans_name {n : String} (h : IsName n) :
    Scans EndsWord (Bytes.ofString n) .identifier (Bytes.ofString n) := by
  intro pos after hafter
  obtain ⟨b, bs, hbytes, hgap, hlexeme⟩ := lexeme_word h.toIsWord hafter
  simp only [h.surface, h.keyword, Bool.false_eq_true, if_false] at hlexeme
  rw [hbytes]
  exact tokensFrom_token pos hgap hlexeme

/-- A surface that ends where an argument ends is scanned as a surface. -/
theorem scans_surface {n : String} (h : IsWord n) {letter : Char} {index : Nat}
    (hsurface : surfaceWord? n.toList = some (letter, index, true)) :
    Scans EndsWord (Bytes.ofString n) .surface (Bytes.ofString n) := by
  intro pos after hafter
  obtain ⟨b, bs, hbytes, hgap, hlexeme⟩ := lexeme_word h hafter
  rw [hsurface] at hlexeme
  rw [hbytes]
  exact tokensFrom_token pos hgap hlexeme

/-- The word of a surface that the language does not have is no token. -/
theorem tokensFrom_badSurface {n : String} (h : IsWord n) {letter : Char} {index : Nat}
    (hsurface : surfaceWord? n.toList = some (letter, index, false)) (pos : Pos) {after : Bytes}
    (hafter : EndsWord after) :
    tokensFrom ⟨pos, Bytes.ofString n ++ after⟩ = .error ⟨.invalidSurface n, pos, []⟩ := by
  obtain ⟨b, bs, hbytes, hgap, hlexeme⟩ := lexeme_word h hafter
  rw [hsurface] at hlexeme
  rw [hbytes, tokensFrom]
  split
  · rename_i hrest
    exact absurd hrest (by simp)
  · rename_i c cs hrest
    obtain ⟨rfl, rfl⟩ : b = c ∧ bs ++ after = cs := by simpa using hrest
    simp only [hgap, hlexeme]

/-- Digits, or digits around a point. -/
inductive IsDecimal : Bytes → Prop
  | whole {as : Bytes} (hne : as ≠ []) (has : ∀ b ∈ as, isDigit (Char.ofUInt8 b) = true) :
      IsDecimal as
  | point {as fs : Bytes} (hne : as ≠ []) (has : ∀ b ∈ as, isDigit (Char.ofUInt8 b) = true)
      (hfs : fs ≠ [])
      (hfrac : ∀ b ∈ fs, isDigit (Char.ofUInt8 b) = true) : IsDecimal (as ++ 46 :: fs)

/-- A decimal starts with a digit. -/
theorem IsDecimal.start {bs : Bytes} (h : IsDecimal bs) :
    ∃ b more, bs = b :: more ∧ isDigit (Char.ofUInt8 b) = true := by
  cases h with
  | whole hne has | point hne has =>
    obtain ⟨b, more, rfl⟩ := List.exists_cons_of_ne_nil hne
    exact ⟨b, _, rfl, has b (by simp)⟩

/-- A number ends where neither a name nor a number goes on. -/
theorem IsDecimal.numberLength {bs after : Bytes} (h : IsDecimal bs) (hafter : EndsNumber after) :
    numberLength (bs ++ after) = bs.length := by
  have hfraction : fractionLength after = 0 := by
    rw [fractionLength.eq_def]
    split
    · exact absurd rfl (hafter 46 rfl).2
    · rfl
  have hexponent : exponentLength after = 0 := by
    rw [exponentLength.eq_def]
    split
    · rfl
    · rename_i e bs
      refine if_neg fun he => ?_
      have hpart := (hafter e rfl).1
      rw [Bool.or_eq_true, decide_eq_true_eq, decide_eq_true_eq] at he
      rcases he with rfl | rfl <;> exact absurd hpart (by decide)
  have hnodigit : ∀ x ∈ after.head?, isDigit (Char.ofUInt8 x) = false :=
    fun x hx => not_isDigit_of_not_isNamePart (hafter x hx).1
  unfold Lexer.numberLength
  dsimp only
  cases h with
  | whole hne has =>
    rw [runLength_append has hnodigit, List.drop_left, hfraction, Nat.add_zero, List.drop_left,
      hexponent, Nat.add_zero]
  | @point as fs hne has hfs hfrac =>
    have hwhole : runLength isDigit (as ++ 46 :: fs ++ after) = as.length := by
      rw [List.append_assoc]
      exact runLength_append has (by simp; decide)
    have hlength : fractionLength (46 :: fs ++ after) = 1 + fs.length := by
      change (if runLength isDigit (fs ++ after) = 0 then 0 else 1 +
        runLength isDigit (fs ++ after)) = _
      rw [runLength_append hfrac hnodigit, if_neg (by simpa using hfs)]
    have htotal : as.length + (1 + fs.length) = (as ++ 46 :: fs).length := by
      rw [List.length_append, List.length_cons, Nat.add_comm 1]
    rw [hwhole, List.append_assoc, List.drop_left, hlength, htotal, ← List.append_assoc,
      List.drop_left, hexponent, Nat.add_zero]

/-- A decimal is scanned as a number where no number goes on. -/
theorem scans_decimal {bs : Bytes} (h : IsDecimal bs) : Scans EndsNumber bs .number bs := by
  intro pos after hafter
  have hlength := h.numberLength hafter
  obtain ⟨b, more, rfl, hdigit⟩ := h.start
  have hnone : ∀ c ∈ [' ', '\t', '\r', '\n', '#', '/'], isDigit c = false := by simp [isDigit]
  have hother : ∀ c ∈ [' ', '\t', '\r', '\n', '#', '/'], Char.ofUInt8 b ≠ c := by
    intro c hc heq
    rw [heq, hnone c hc] at hdigit
    cases hdigit
  have hgap : gap b (more ++ after) = .ok none := by
    unfold gap
    split <;> simp_all
  refine tokensFrom_token pos hgap ?_
  rw [List.cons_append] at hlength
  unfold lexeme
  dsimp only
  rw [if_neg (hother '#' (by simp)), if_pos (by rw [hdigit, Bool.true_or]), hlength, Lexed.verbatim,
    ← List.cons_append, List.take_left, List.length_cons, Nat.add_sub_cancel]

/-- A sign is a token, and the token behind it is the next one. -/
theorem tokensFrom_signed {b : UInt8} {kind kind' : TokenKind} {text lex after : Bytes}
    {more : List Token} {pos : Pos} (hsign : b = 45 ∧ kind = .minus ∨ b = 43 ∧ kind = .plus)
    (h : Scans EndsArgument text kind' lex) (hafter : EndsArgument after)
    (hmore : tokensFrom ⟨pos.past (b :: text), after⟩ = .ok more) :
    tokensFrom ⟨pos, b :: text ++ after⟩ =
      .ok ([⟨kind, [b], pos⟩, ⟨kind', lex, pos.past [b]⟩] ++ more) := by
  have hfirst : gap b (text ++ after) = .ok none ∧ lexeme b (text ++ after) = .ok ⟨kind, [b], 0⟩ ∧
      b < 0x80 := by
    rcases hsign with ⟨rfl, rfl⟩ | ⟨rfl, rfl⟩
    all_goals exact ⟨rfl, rfl, by decide⟩
  have hpast : (pos.past [b]).past text = pos.past (b :: text) :=
    (Pos.past_append (Utf8.Seam.after_ascii (a := []) hfirst.2.2) pos).symm
  have htext := h (pos.past [b]) after hafter
  rw [hpast, hmore] at htext
  have hscan : tokensFrom ⟨pos, b :: text ++ after⟩ =
      (tokensFrom ⟨pos.past [b], text ++ after⟩).map (⟨kind, [b], pos⟩ :: ·) :=
    @tokensFrom_token b [] (text ++ after) [b] kind pos hfirst.1 hfirst.2.1
  rw [hscan, htext]
  rfl

end Lexer

namespace Parser

open Scope

/-! ## one literal -/

/-- A comma or a closing parenthesis is next. -/
def Stops (ts : List Token) : Prop :=
  ∃ t rest, ts = t :: rest ∧ (t.kind = .comma ∨ t.kind = .rparen)

/-- The parser gives the value and leaves the rest. -/
def Makes {α : Type} {n : Nat} (r : Except SyntaxError (Parsed α n)) (v : α) (rest : List Token) :
    Prop :=
  ∃ x, r = .ok x ∧ x.value = v ∧ x.rest = rest

variable {s : Scope} {e : Expr} {ts more : List Token} {t : Token}

/-- An operand that ends an argument is a product of its own. -/
theorem makes_products (left : Expr) (h : Stops ts) : Makes (products s left ts) left ts := by
  obtain ⟨t, rest, rfl, ht⟩ := h
  have hkind : ¬ (t.kind = .star ∨ t.kind = .slash) := by
    rcases ht with ht | ht <;> simp [ht]
  rw [products]
  simp only [Bool.or_eq_true, decide_eq_true_eq, if_neg hkind]
  exact ⟨_, rfl, rfl, rfl⟩

/-- A product that ends an argument is a sum of its own. -/
theorem makes_sums (left : Expr) (h : Stops ts) : Makes (sums s left ts) left ts := by
  obtain ⟨t, rest, rfl, ht⟩ := h
  have hkind : ¬ (t.kind = .plus ∨ t.kind = .minus) := by
    rcases ht with ht | ht <;> simp [ht]
  rw [sums]
  simp only [Bool.or_eq_true, decide_eq_true_eq, if_neg hkind]
  exact ⟨_, rfl, rfl, rfl⟩

/-- An operand alone is the expression. -/
theorem makes_expr (hdepth : s.depth < s.maxDepth)
    (h : Makes (unary { s with depth := s.depth + 1 } ts) e more) (hmore : Stops more) :
    Makes (expr s ts) e more := by
  obtain ⟨x, hx, rfl, rfl⟩ := h
  obtain ⟨y, hy, hyvalue, hyrest⟩ :=
    makes_products (s := { s with depth := s.depth + 1 }) x.value hmore
  have hmore' := hyrest ▸ hmore
  obtain ⟨z, hz, hzvalue, hzrest⟩ :=
    makes_sums (s := { s with depth := s.depth + 1 }) y.value hmore'
  have henter : s.enter (s.peek ts).pos = .ok { s with depth := s.depth + 1 } := if_neg (by omega)
  rw [expr, henter]
  change Makes (additive _ ts) _ _
  rw [additive, multiplicative, hx]
  simp only [bind, Except.bind, pure, Except.pure, hy, hz]
  exact ⟨_, rfl, hzvalue.trans hyvalue, hzrest.trans hyrest⟩

theorem makes_unary (ht : t.kind ≠ .minus ∧ t.kind ≠ .plus) (h : Makes (primary s t more) e ts) :
    Makes (unary s (t :: more)) e ts := by
  rw [unary, if_neg (by simpa using ht)]
  exact h

/-- A sign applies to the operand read behind it. -/
theorem makes_sign {v : Expr} (ht : t.kind = .minus ∨ t.kind = .plus)
    (h : Makes (unary s more) e ts) (hv : applySign t e = .ok v) :
    Makes (unary s (t :: more)) v ts := by
  obtain ⟨x, hx, rfl, rfl⟩ := h
  rw [unary, if_pos (by simpa using ht), hx]
  simp only [bind, Except.bind, hv]
  exact ⟨_, rfl, rfl, rfl⟩

/-- A sign before an operand that is no number ends an expression. -/
theorem expr_sign_error {err : SyntaxError} (ht : t.kind = .minus ∨ t.kind = .plus)
    (hdepth : s.depth < s.maxDepth) (h : Makes (unary { s with depth := s.depth + 1 } more) e ts)
    (hv : applySign t e = .error err) :
    expr s (t :: more) = .error err := by
  obtain ⟨x, hx, rfl, rfl⟩ := h
  have henter : s.enter (s.peek (t :: more)).pos = .ok { s with depth := s.depth + 1 } :=
    if_neg (by omega)
  have hunary : unary { s with depth := s.depth + 1 } (t :: more) = .error err := by
    rw [unary, if_pos (by simpa using ht), hx]
    simp only [bind, Except.bind, hv]
  rw [expr, henter]
  change additive _ (t :: more) = _
  rw [additive, multiplicative, hunary]
  rfl

theorem makes_string (ht : t.kind = .string) :
    Makes (primary s t more) (.string t.lexeme t.pos) more := by
  rw [primary]
  simp only [ht]
  exact ⟨_, rfl, rfl, rfl⟩

theorem makes_surface (ht : t.kind = .surface) :
    Makes (primary s t more) (.surface (surfaceOf t) t.pos) more := by
  rw [primary]
  simp only [ht]
  exact ⟨_, rfl, rfl, rfl⟩

/-- A number is an operand of its own. -/
theorem makes_number {n : String} {x : Float} (hx : Number.read? n = some x) (pos : Pos) :
    Makes (primary s ⟨.number, Bytes.ofString n, pos⟩ more) (.number x n pos) more := by
  rw [primary]
  simp only [numeral, Token.word_ofString, hx]
  exact ⟨_, rfl, rfl, rfl⟩

/-- A name that no variable has stands for itself. -/
theorem makes_ident (hs : s.vars = []) (ht : t.kind = .identifier) (hmore : Stops more) :
    Makes (primary s t more) (.ident t.word t.pos) more := by
  obtain ⟨u, rest, rfl, hu⟩ := hmore
  have hdot : u.kind ≠ .dot := by rcases hu with hu | hu <;> simp [hu]
  have hparen : u.kind ≠ .lparen := by rcases hu with hu | hu <;> simp [hu]
  have hpath : dottedPath (u :: rest) = ([], u :: rest) := by
    cases rest with
    | nil => rfl
    | cons v rest => rw [dottedPath, if_neg (by simp [hdot])]
  rw [primary]
  simp only [ht]
  rw [named]
  simp only [peek, List.headD_cons, hdot, decide_false, Bool.and_false, Bool.false_and, hs,
    List.contains_nil, Bool.false_eq_true, if_false, hpath, hparen, List.isEmpty_nil, if_true]
  exact ⟨_, rfl, rfl, rfl⟩

/-! ## one argument -/

/-- The text is tokens of its own where an argument ends behind it, and with no variables they are
read as the expression, which stands where the text does. -/
def ReadAs (text : Bytes) (e : Pos → Expr) : Prop :=
  ∀ pos after more, Lexer.EndsArgument after → Lexer.tokensFrom ⟨pos.past text, after⟩ = .ok more →
    ∃ ts, Lexer.tokensFrom ⟨pos, text ++ after⟩ = .ok (ts ++ more) ∧
      ∀ s : Scope, s.vars = [] → s.depth < s.maxDepth → Makes (expr s (ts ++ more)) (e pos) more

/-- Tokens that stand where an argument ends begin with the one that ends it. -/
theorem stops_of_ends {pos : Pos} {after : Bytes} (h : Lexer.EndsArgument after)
    (hmore : Lexer.tokensFrom ⟨pos, after⟩ = .ok more) : Stops more := by
  have hfirst : ∀ b kind rest, Lexer.gap b rest = .ok none →
      Lexer.lexeme b rest = .ok ⟨kind, [b], 0⟩ →
      Lexer.tokensFrom ⟨pos, b :: rest⟩ = .ok more → ∃ t rest, more = t :: rest ∧
          t.kind = kind := by
    intro b kind rest hgap hl hok
    have hscan := @Lexer.tokensFrom_token b [] rest [b] kind pos hgap hl
    rw [List.singleton_append, hok] at hscan
    cases hrest : Lexer.tokensFrom ⟨pos.past [b], rest⟩ with
    | error err =>
      rw [hrest] at hscan
      cases hscan
    | ok others =>
      rw [hrest] at hscan
      exact ⟨_, others, Except.ok.inj hscan, rfl⟩
  obtain ⟨b, rest, rfl, rfl | rfl⟩ := h
  · obtain ⟨t, others, hts, ht⟩ := hfirst _ .comma rest rfl rfl hmore
    exact ⟨t, others, hts, .inl ht⟩
  · obtain ⟨t, others, hts, ht⟩ := hfirst _ .rparen rest rfl rfl hmore
    exact ⟨t, others, hts, .inr ht⟩

/-- One token that is read as the expression. -/
theorem ReadAs.of_token {text lex : Bytes} {kind : TokenKind} {e : Pos → Expr} {ends : Bytes → Prop}
    (hends : ∀ after, Lexer.EndsArgument after → ends after) (h : Lexer.Scans ends text kind lex)
    (hkind : kind ≠ .minus ∧ kind ≠ .plus)
    (he : ∀ pos (s : Scope) more, s.vars = [] → Stops more →
      Makes (primary s ⟨kind, lex, pos⟩ more) (e pos) more) : ReadAs text e := by
  intro pos after more hafter hmore
  refine ⟨[⟨kind, lex, pos⟩], by rw [h pos after (hends after hafter), hmore]; rfl,
    fun s hs hdepth => ?_⟩
  have hstops := stops_of_ends hafter hmore
  exact makes_expr hdepth (makes_unary hkind (he pos _ more hs hstops)) hstops

theorem readAs_string {quote : UInt8} {text contents : Bytes}
    (hquote : quote ∈ Bytes.ofString "\"'") (h : Lexer.StandsFor quote text contents) :
    ReadAs (quote :: text ++ [quote]) (.string contents) :=
  .of_token (fun _ _ => trivial) (h.scans hquote) (by decide) fun _ _ _ _ _ => makes_string rfl

theorem readAs_name {n : String} (h : Lexer.IsName n) : ReadAs (Bytes.ofString n) (.ident n) := by
  refine .of_token (fun _ => Lexer.EndsArgument.endsWord) (Lexer.scans_name h) (by decide)
    fun pos s more hs hmore => ?_
  have hident := makes_ident (t := ⟨.identifier, Bytes.ofString n, pos⟩) hs rfl hmore
  rwa [Token.word_ofString] at hident

theorem readAs_surface {n : String} (h : Lexer.IsWord n) {letter : Char} {index : Nat}
    (hsurface : Lexer.surfaceWord? n.toList = some (letter, index, true)) :
    ReadAs (Bytes.ofString n) fun pos =>
      .surface (surfaceOf ⟨.surface, Bytes.ofString n, pos⟩) pos :=
  .of_token (fun _ => Lexer.EndsArgument.endsWord) (Lexer.scans_surface h hsurface) (by decide)
    fun _ _ _ _ _ => makes_surface rfl

theorem readAs_decimal {n : String} {x : Float} (h : Lexer.IsDecimal (Bytes.ofString n))
    (hx : Number.read? n = some x) : ReadAs (Bytes.ofString n) (.number x n) :=
  .of_token (fun _ => Lexer.EndsArgument.endsNumber) (Lexer.scans_decimal h) (by decide)
    fun pos _ _ _ _ => makes_number hx pos

/-- A number behind a minus sign. -/
theorem readAs_negative {n : String} {x : Float} (h : Lexer.IsDecimal (Bytes.ofString n))
    (hx : Number.read? n = some x) : ReadAs (45 :: Bytes.ofString n) (.number (-x) ("-" ++ n)) := by
  intro pos after more hafter hmore
  refine ⟨_, Lexer.tokensFrom_signed (.inl ⟨rfl, rfl⟩)
    ((Lexer.scans_decimal h).mono fun _ => Lexer.EndsArgument.endsNumber) hafter hmore,
      fun s hs hdepth => ?_⟩
  have hstops := stops_of_ends hafter hmore
  have hnumber :=
    makes_unary (by simp)
      (@makes_number { s with depth := s.depth + 1 } more n x hx (pos.past [45]))
  exact makes_expr hdepth (makes_sign (.inl rfl) hnumber rfl) hstops

/-- The closing parenthesis of a call whose argument is the last one. -/
theorem tokensFrom_closing (pos : Pos) : Lexer.EndsArgument [41] ∧
    Lexer.tokensFrom ⟨pos, [41]⟩ =
      .ok [⟨.rparen, [41], pos⟩, ⟨.endOfInput, [], pos.past [41]⟩] := by
  have hend : Lexer.tokensFrom ⟨pos.past [41], []⟩ = .ok [⟨.endOfInput, [], pos.past [41]⟩] := by
    rw [Lexer.tokensFrom]
  have hscan := @Lexer.tokensFrom_token 41 [] [] [41] .rparen pos rfl rfl
  rw [hend] at hscan
  exact ⟨⟨41, [], rfl, .inr rfl⟩, hscan⟩

/-- What the parser knows in a source without blocks and variables. -/
abbrev outermost : Scope := { last := ⟨.endOfInput, [], {}⟩, maxDepth := 1 }

/-- The text as the last argument of a call. -/
theorem ReadAs.last {text : Bytes} {e : Pos → Expr} (h : ReadAs text e) (pos : Pos) :
    ∃ (ts : List Token) (x : Parsed Expr ts.length), Lexer.tokensFrom ⟨pos, text ++ [41]⟩ = .ok ts ∧
      expr outermost ts = .ok x ∧ x.value = e pos := by
  obtain ⟨hends, hclosing⟩ := tokensFrom_closing (pos.past text)
  obtain ⟨ts, hts, hread⟩ := h pos [41] _ hends hclosing
  obtain ⟨x, hx, hvalue, -⟩ := hread outermost rfl Nat.one_pos
  exact ⟨_, x, hts, hx, hvalue⟩

/-- A text is read in one way. -/
theorem ReadAs.unique {text : Bytes} {e e' : Pos → Expr} (h : ReadAs text e) (h' : ReadAs text e')
    (pos : Pos) :
    e pos = e' pos := by
  obtain ⟨ts, x, hts, hx, hvalue⟩ := h.last pos
  obtain ⟨ts', x', hts', hx', hvalue'⟩ := h'.last pos
  obtain rfl := Except.ok.inj (hts.symm.trans hts')
  rw [← hvalue, ← hvalue', Except.ok.inj (hx.symm.trans hx')]

/-- A word with the shape of a surface that does not exist is not read as an argument. -/
theorem not_readAs_badSurface {n : String} (h : Lexer.IsWord n) {letter : Char} {index : Nat}
    (hsurface : Lexer.surfaceWord? n.toList = some (letter, index, false)) (e : Pos → Expr) :
    ¬ ReadAs (Bytes.ofString n) e := by
  intro hread
  obtain ⟨ts, x, hts, -⟩ := hread.last {}
  obtain ⟨hends, -⟩ := tokensFrom_closing {}
  cases hts.symm.trans (Lexer.tokensFrom_badSurface h hsurface {} hends.endsWord)

/-- A sign has to stand before a number. -/
theorem not_readAs_signed {b : UInt8} {n : String} (hsign : b = 45 ∨ b = 43) (h : Lexer.IsName n)
    (e : Pos → Expr) :
    ¬ ReadAs (b :: Bytes.ofString n) e := by
  intro hread
  obtain ⟨ts, x, hts, hx, -⟩ := hread.last {}
  obtain ⟨kind, hkind⟩ : ∃ kind : TokenKind, b = 45 ∧ kind = .minus ∨ b = 43 ∧ kind = .plus := by
    rcases hsign with h | h
    · exact ⟨.minus, .inl ⟨h, rfl⟩⟩
    · exact ⟨.plus, .inr ⟨h, rfl⟩⟩
  obtain ⟨hends, hclosing⟩ := tokensFrom_closing (Pos.past {} (b :: Bytes.ofString n))
  have hscan :=
    Lexer.tokensFrom_signed hkind ((Lexer.scans_name h).mono fun _ => Lexer.EndsArgument.endsWord)
      hends
    hclosing
  obtain rfl := Except.ok.inj (hts.symm.trans hscan)
  have hident := makes_unary (s := { outermost with depth := 1 })
    (t := ⟨.identifier, Bytes.ofString n, Pos.past {} [b]⟩) (by simp)
    (makes_ident rfl rfl (stops_of_ends hends hclosing))
  have herror :=
    expr_sign_error (s := outermost) (t := ⟨kind, [b], {}⟩) (hkind.imp And.right And.right)
      Nat.one_pos
    hident rfl
  cases herror.symm.trans hx

end Parser

end EffectChain
