import EffectChain.Proofs.Plan.Nesting
import EffectChain.Proofs.Text.Fields
import EffectChain.Proofs.Token.Closures

/-!
# EffectChain.Proofs.Program.Spelling

What a source can spell.

A name of a source has letters, digits and underscores only, a color is a number sign with
hexadecimal digits, and the body of a closure is balanced.  This holds of the tokens
(`Token.plains_scan`), and parsing hands it on: the colors of a parsed program have the components
of their digits, its surfaces are those the language names, its calls are of single names, and the
names it searches stand on one line (`Program.sound_parse`).

A closure at the end of the source is the exception, as nothing may end its body.  It can only be
what the last statement binds, and no statement uses it.
-/

namespace EffectChain

/-! ## tokens -/

/-- A number sign and the digits of a color. -/
def SpellsColor (raw : String) : Prop :=
  ∃ cs, raw.toList = '#' :: cs ∧ (cs.length = 3 ∨ cs.length = 6 ∨ cs.length = 8) ∧ ∀ c ∈ cs,
    Lexer.isHex c = true

/-- No character of a colour literal needs quoting. -/
theorem SpellsColor.isClear {raw : String} (h : SpellsColor raw) :
    Fields.isClear raw.toList = true := by
  obtain ⟨cs, hraw, -, hdigits⟩ := h
  rw [hraw]
  refine Fields.isClear_of_notMem (fun hmem => ?_) fun hmem => ?_
  · rcases List.mem_cons.1 hmem with h | h
    · cases h
    · exact absurd (hdigits _ h) (by decide)
  · rcases List.mem_cons.1 hmem with h | h
    · cases h
    · exact absurd (hdigits _ h) (by decide)

/-- A single name, without a namespace before it. -/
def Undotted (name : String) : Prop := '.' ∉ name.toList

/-- The token is spelled as its kind is. -/
structure Token.Plain (t : Token) : Prop where
  color : t.kind = .color → SpellsColor t.word
  identifier : t.kind = .identifier → '\n' ∉ t.word.toList ∧ Undotted t.word

/-- A token of another kind is plain. -/
theorem Token.Plain.of_kind {t : Token} (h : (t.kind != .color && t.kind != .identifier) = true) :
    t.Plain := by
  simp only [Bool.and_eq_true, bne_iff_ne] at h
  exact ⟨fun hcolor => absurd hcolor h.1, fun hname => absurd hname h.2⟩

namespace Utf8

/-- Bytes of seven bits are their own characters. -/
theorem decode_ascii {bs : Bytes} (h : ∀ b ∈ bs, b < 0x80) : decode bs = bs.map Char.ofUInt8 := by
  induction bs with
  | nil => simp [decode]
  | cons b bs ih =>
    have hglyph : glyphAt b bs = .char (Char.ofUInt8 b) [b] := by
      unfold glyphAt
      rw [if_pos (h b (by simp))]
      exact congrArg (Glyph.char · [b]) (Char.ofNat_toNat (Char.ofUInt8 b))
    have hrest := ih fun x hx => h x (List.mem_cons_of_mem b hx)
    rw [decode] at hrest ⊢
    rw [glyphs_cons, hglyph]
    simpa [Glyph.bytes, Glyph.toChar] using hrest

end Utf8

namespace Lexer

/-- A character of a name is one byte, and neither a newline nor an assignment nor a dot. -/
theorem isNamePart_ascii (b : UInt8) (h : isNamePart (Char.ofUInt8 b) = true) :
    b < 0x80 ∧ Char.ofUInt8 b ≠ '\n' ∧ Char.ofUInt8 b ≠ '.' := by
  obtain ⟨⟨n⟩⟩ := b
  revert n
  decide +kernel

theorem sign_ascii (b : UInt8) (h : Char.ofUInt8 b = '#') : b < 0x80 := by
  obtain ⟨⟨n⟩⟩ := b
  revert n
  decide +kernel

/-- A hexadecimal digit may stand in a name. -/
theorem isNamePart_of_isHex {c : Char} (h : isHex c = true) : isNamePart c = true := by
  simp only [isHex, isNamePart, isNameStart, Bool.or_eq_true, Bool.and_eq_true, decide_eq_true_iff]
    at h ⊢
  rcases h with (h | h) | h
  · exact .inr h
  · exact .inl (.inl (.inr ⟨h.1, Char.le_trans h.2 (by decide)⟩))
  · exact .inl (.inr ⟨h.1, Char.le_trans h.2 (by decide)⟩)

theorem of_mem_run {p : Char → Bool} {b : UInt8} {bs : Bytes} (h : b ∈ bs.take (runLength p bs)) :
    p (Char.ofUInt8 b) = true := by
  rw [runLength, ← List.prefix_iff_eq_take.1 (List.takeWhile_prefix _)] at h
  exact List.mem_takeWhile_imp (p := fun b => p (Char.ofUInt8 b)) h

/-- A word of names' characters is read as it is written. -/
theorem toList_word {bs : Bytes} (h : ∀ b ∈ bs, isNamePart (Char.ofUInt8 b) = true) :
    (Bytes.toString bs).toList = bs.map Char.ofUInt8 := by
  rw [Bytes.toString, String.toList_ofList, Utf8.decode_ascii fun b hb =>
    (isNamePart_ascii b (h b hb)).1]

/-- The digits of a color are hexadecimal, and there are three, six or eight of them if any. -/
theorem spelled_color (bs : Bytes) :
    (∀ b ∈ bs.take (colorDigits bs), isHex (Char.ofUInt8 b) = true) ∧
    (colorDigits bs ≠ 0 → (bs.take (colorDigits bs)).length = 3 ∨
      (bs.take (colorDigits bs)).length = 6 ∨
      (bs.take (colorDigits bs)).length = 8) := by
  unfold colorDigits
  dsimp only
  split
  · rename_i hcount
    have hle : runLength isHex bs ≤ bs.length := (List.takeWhile_prefix _).length_le
    rw [List.length_take, Nat.min_eq_left hle]
    refine ⟨fun b => of_mem_run, fun _ => ?_⟩
    rw [Bool.and_eq_true, Bool.or_eq_true, Bool.or_eq_true, decide_eq_true_iff, decide_eq_true_iff,
      decide_eq_true_iff] at hcount
    exact or_assoc.1 hcount.1
  · exact ⟨by simp, fun h => absurd rfl h⟩

/-- A word of names' characters stands on one line, and no path ends in it. -/
theorem notMem_word {bs : Bytes} (h : ∀ b ∈ bs, isNamePart (Char.ofUInt8 b) = true) :
    '\n' ∉ bs.map Char.ofUInt8 ∧ '.' ∉ bs.map Char.ofUInt8 := by
  refine ⟨?_, ?_⟩ <;> rw [List.mem_map] <;> rintro ⟨b, hb, heq⟩
  · exact (isNamePart_ascii b (h b hb)).2.1 heq
  · exact (isNamePart_ascii b (h b hb)).2.2 heq

/-- The token of a name is plain. -/
theorem plain_name {bs : Bytes} {l : Lexed} {pos : Pos} (h : name bs = .ok l) :
    (⟨l.kind, l.lexeme, pos⟩ : Token).Plain := by
  have hword : '\n' ∉ (Bytes.toString (bs.take (runLength isNamePart bs))).toList ∧
      Undotted (Bytes.toString (bs.take (runLength isNamePart bs))) := by
    rw [Undotted, toList_word fun b => of_mem_run]
    exact notMem_word fun b => of_mem_run
  unfold name at h
  dsimp only at h
  split at h
  · obtain rfl := Except.ok.inj h
    exact .of_kind rfl
  · cases h
  · obtain rfl := Except.ok.inj h
    refine ⟨?_, fun _ => hword⟩
    dsimp only [Lexed.verbatim]
    split <;> nofun

/-- Every lexeme that is read makes a plain token. -/
theorem plain_lexeme {b : UInt8} {bs : Bytes} {l : Lexed} {pos : Pos} (hgap : gap b bs = .ok none)
    (h : lexeme b bs = .ok l) : (⟨l.kind, l.lexeme, pos⟩ : Token).Plain := by
  unfold lexeme at h
  dsimp only at h
  split at h
  · rename_i hsign
    obtain rfl := Except.ok.inj h
    refine ⟨fun _ => ?_, nofun⟩
    -- the number sign is no part of a name, so the digits are read apart from it
    obtain ⟨hhex, hcount⟩ := spelled_color bs
    have hlist : (Token.word ⟨.color, (b :: bs).take (1 + colorDigits bs), pos⟩).toList =
        '#' :: (bs.take (colorDigits bs)).map Char.ofUInt8 := by
      rw [Nat.add_comm, List.take_succ_cons, Token.word, Bytes.toString, String.toList_ofList,
        Utf8.decode_ascii, List.map_cons, hsign]
      intro x hx
      rcases List.mem_cons.1 hx with rfl | hx
      · exact sign_ascii x hsign
      · exact (isNamePart_ascii x (isNamePart_of_isHex (hhex x hx))).1
    have hne : colorDigits bs ≠ 0 := by
      unfold gap at hgap
      rw [hsign] at hgap
      intro hzero
      simp [hzero] at hgap
    refine ⟨_, hlist, by simpa using hcount hne, fun c hc => ?_⟩
    obtain ⟨x, hx, rfl⟩ := List.mem_map.1 hc
    exact hhex x hx
  · split at h
    · obtain rfl := Except.ok.inj h
      exact .of_kind rfl
    · split at h
      · split at h
        · obtain rfl := Except.ok.inj h
          exact .of_kind rfl
        · cases h
      · split at h
        · exact plain_name h
        · split at h
          · split at h
            · split at h
              · cases h
              · obtain rfl := Except.ok.inj h
                exact .of_kind rfl
            · obtain rfl := Except.ok.inj h
              exact .of_kind rfl
          · split at h
            · rename_i kind hkind
              obtain rfl := Except.ok.inj h
              refine .of_kind ?_
              change (kind != .color && kind != .identifier) = true
              unfold TokenKind.ofSign? at hkind
              split at hkind <;> cases hkind <;> rfl
            · cases h

end Lexer

/-- What holds of the token at every place, and of the one that ends the input, holds of the
tokens of a source. -/
theorem Token.forall_scan {P : Token → Prop} (hend : ∀ pos, P ⟨.endOfInput, [], pos⟩)
    (hlexeme : ∀ b bs l pos, Lexer.lexeme b bs = .ok l → P ⟨l.kind, l.lexeme, pos⟩) {source : Bytes}
    {ts : List Token} (h : scan source = .ok ts) : ∀ t ∈ ts, P t := by
  have hfrom : ∀ (c : Lexer.Cursor) (ts : List Token), Lexer.tokensFrom c = .ok ts → ∀ t ∈ ts,
      P t := by
    intro c
    fun_induction Lexer.tokensFrom c with
    | case1 c hrest =>
      intro ts hts t ht
      obtain rfl := Except.ok.inj hts
      obtain rfl := List.mem_singleton.1 ht
      exact hend c.pos
    | case2 => exact fun ts hts => nomatch hts
    | case3 c b bs hrest more hgap ih => exact ih
    | case4 => exact fun ts hts => nomatch hts
    | case5 c b bs hrest hgap l hl ih =>
      intro ts hts t ht
      cases hmore : Lexer.tokensFrom (c.advance (l.more + 1)) with
      | error e =>
        rw [hmore] at hts
        cases hts
      | ok more =>
        rw [hmore] at hts
        obtain rfl := Except.ok.inj hts
        rcases List.mem_cons.1 ht with rfl | ht
        · exact hlexeme b bs l c.pos hl
        · exact ih more hmore t ht
  exact hfrom _ ts h

/-- Tokens that are spelled as their kinds are; only the last one may be a closure that nothing
ends. -/
def Token.Plains : List Token → Prop
  | [] => True
  | t :: rest =>
      t.Plain ∧ (t.kind = .closure → rest = [] ∨ Lexer.ClosureSource t.word) ∧ Plains rest

namespace Token.Plains

variable {t : Token} {ts : List Token}

theorem nil : Plains [] := trivial

theorem head (h : Plains (t :: ts)) : t.Plain := h.1

theorem tail (h : Plains (t :: ts)) : Plains ts := h.2.2

theorem drop (h : Plains ts) (n : Nat) : Plains (ts.drop n) := by
  induction n generalizing ts with
  | zero => exact h
  | succ n ih =>
    cases ts with
    | nil => exact nil
    | cons t ts => exact ih h.tail

theorem dropWhile (h : Plains ts) (p : Token → Bool) : Plains (ts.dropWhile p) := by
  obtain ⟨n, hn⟩ : ∃ n, ts.dropWhile p = ts.drop n :=
    ⟨_, List.suffix_iff_eq_drop.1 (List.dropWhile_suffix p)⟩
  rw [hn]
  exact h.drop n

end Token.Plains

/-- The tokens of a source are spelled as their kinds are, and the last one ends the input. -/
theorem Token.plains_scan {source : Bytes} {ts : List Token} (h : scan source = .ok ts) :
    ∃ init last, ts = init ++ [last] ∧ last.kind = .endOfInput ∧ last.Plain ∧ Plains init := by
  have hfrom : ∀ (c : Lexer.Cursor) (ts : List Token), Lexer.tokensFrom c = .ok ts →
      ∃ init last, ts = init ++ [last] ∧ last.kind = .endOfInput ∧ last.Plain ∧ Plains init ∧
          (c.rest = [] → init = []) := by
    intro c
    fun_induction Lexer.tokensFrom c with
    | case1 c hrest =>
      intro ts hts
      obtain rfl := Except.ok.inj hts
      exact ⟨[], _, rfl, rfl, ⟨nofun, nofun⟩, .nil, fun _ => rfl⟩
    | case2 => exact fun ts hts => nomatch hts
    | case3 c b bs hrest more hgap ih =>
      intro ts hts
      obtain ⟨init, last, heq, hend, hlast, hinit, -⟩ := ih ts hts
      exact ⟨init, last, heq, hend, hlast, hinit, fun hnil => nomatch hrest.symm.trans hnil⟩
    | case4 => exact fun ts hts => nomatch hts
    | case5 c b bs hrest hgap l hl ih =>
      intro ts hts
      cases hmore : Lexer.tokensFrom (c.advance (l.more + 1)) with
      | error e =>
        rw [hmore] at hts
        cases hts
      | ok more =>
        rw [hmore] at hts
        obtain rfl := Except.ok.inj hts
        obtain ⟨init, last, rfl, hend, hlast, hinit, hnil⟩ := ih more hmore
        refine ⟨_ :: init, last, rfl, hend, hlast,
          ⟨Lexer.plain_lexeme hgap hl, fun hkind => ?_, hinit⟩,
            fun hnil => nomatch hrest.symm.trans hnil⟩
        by_cases hlt : l.more < bs.length
        · exact .inr (Lexer.closureSource_lexeme hl hkind hlt)
        · refine .inl (hnil (List.drop_eq_nil_of_le ?_))
          rw [hrest, List.length_cons]
          omega
  obtain ⟨init, last, heq, hend, hlast, hinit, -⟩ := hfrom _ ts h
  exact ⟨init, last, heq, hend, hlast, hinit⟩

/-! ## expressions -/

/-- A name of the language is no name of a step's result. -/
theorem Surface.kind_of_ofName? {name : String} {x : Surface} (h : ofName? name = some x) :
    x.kind ≠ .temp := by
  unfold ofName? at h
  split at h
  · obtain ⟨kind, hkind, rfl⟩ := Option.map_eq_some_iff.1 h
    rintro rfl
    unfold SurfaceKind.ofLetter? at hkind
    split at hkind <;> cases hkind
  · cases h

/-- A surface that the language has a name for. -/
def Surface.Named (x : Surface) : Prop := ∃ name, ofName? name = some x

theorem Surface.Named.kind {x : Surface} (h : x.Named) : x.kind ≠ .temp :=
  let ⟨_, hname⟩ := h
  kind_of_ofName? hname

theorem Surface.named_default : Surface.Named {} := ⟨"o0", by decide⟩

/-- Every token spells a surface that the language has a name for. -/
theorem Parser.named_surfaceOf (t : Token) : (surfaceOf t).Named := by
  unfold surfaceOf
  cases hname : Surface.ofName? t.word with
  | none => exact Surface.named_default
  | some x => exact ⟨_, hname⟩

/-- A color has the components of its digits, a surface is one the language names, also one that a
chain is written to, the body of a closure is balanced, and a path is made of single names. -/
def Expr.Spelled : Expr → Prop
  | .color raw rgba _ => SpellsColor raw ∧ rgba = Parser.colorOf raw
  | .surface x _ => x.Named
  | .closure source _ => Lexer.ClosureSource source
  | .ident name _ => Undotted name
  | .member path _ => ∀ name ∈ path, Undotted name
  | .chain ch => ∀ x pos, ch.out = some (.surface x pos) → x.Named
  | _ => True

/-- The parts of an expression are as they can be spelled, and what they call are single names. -/
def Expr.Sound (e : Expr) : Prop := ∀ x ∈ e.parts, x.Spelled ∧ ∀ c ∈ x.calls, Undotted c.name

/-- So are those of a call. -/
structure CallOf.Sound (c : CallOf Expr) : Prop where
  name : Undotted c.name
  written : ∀ w ∈ c.written, w.Sound

/-- An expression is sound when its text is, and every call in it. -/
theorem Expr.sound_iff (e : Expr) : e.Sound ↔ e.Spelled ∧ ∀ c ∈ e.calls, c.Sound := by
  rw [Sound, e.parts_eq]
  simp only [List.mem_cons, List.mem_flatMap]
  constructor
  · intro h
    obtain ⟨he, hnames⟩ := h e (.inl rfl)
    exact ⟨he, fun c hc => ⟨hnames c hc, fun w hw x hx => h x (.inr ⟨c, hc, w, hw, hx⟩)⟩⟩
  · rintro ⟨he, hcalls⟩ x (rfl | ⟨c, hc, w, hw, hx⟩)
    · exact ⟨he, fun c hc => (hcalls c hc).name⟩
    · exact (hcalls c hc).written w hw x hx

/-- A literal that is no color is sound, and so is a color that is spelled. -/
theorem Expr.Sound.literal {e : Expr} (h : e.Spelled) (hcalls : e.calls = []) : e.Sound := by
  rw [Expr.sound_iff, hcalls]
  exact ⟨h, by simp⟩

@[simp] theorem Expr.sound_call (c : Call) : (Expr.call c).Sound ↔ c.Sound := by
  simp [sound_iff, Spelled, calls]

/-- So are those of a chain. -/
structure ChainOf.Sound (ch : ChainOf Expr) : Prop where
  calls : ∀ c ∈ ch.calls, c.Sound
  out : ∀ x pos, ch.out = some (.surface x pos) → x.Named

@[simp] theorem Expr.sound_chain (ch : Chain) : (Expr.chain ch).Sound ↔ ch.Sound := by
  rw [sound_iff]
  exact ⟨fun h => ⟨h.2, h.1⟩, fun h => ⟨h.out, h.calls⟩⟩

/-- Every expression but a closure that nothing ends, which stands at the end of the source. -/
def Expr.SoundBefore (rest : List Token) (e : Expr) : Prop :=
  e.Sound ∨ rest = [] ∧ ∃ source pos, e = .closure source pos

theorem Expr.SoundBefore.sound {t : Token} {rest ts : List Token} {e : Expr}
    (h : e.SoundBefore rest) (hrest : rest = t :: ts) : e.Sound :=
  h.resolve_right fun hend => nomatch hrest.symm.trans hend.1

/-- A computation that succeeds has its steps succeed. -/
theorem exists_of_bind {ε α β : Type} {x : Except ε α} {f : α → Except ε β} {b : β}
    (h : (x >>= f) = .ok b) :
    ∃ a, x = .ok a ∧ f a = .ok b := by
  cases x with
  | error e => cases h
  | ok a => exact ⟨a, rfl, h⟩

namespace Parser

/-- What is read has a property with the tokens that are left, and these are spelled as before. -/
def Yields {α : Type} {n : Nat} (p : List Token → α → Prop) (r : Except SyntaxError (Parsed α n)) :
    Prop :=
  ∀ x, r = .ok x → p x.rest x.value ∧ Token.Plains x.rest

namespace Yields

variable {α β γ : Type} {m n : Nat} {p : List Token → α → Prop} {q : List Token → β → Prop}

theorem ok {x : Parsed α n} (hp : p x.rest x.value) (ht : Token.Plains x.rest) :
    Yields p (.ok x) := by
  intro y hy
  obtain rfl := Except.ok.inj hy
  exact ⟨hp, ht⟩

theorem error {e : SyntaxError} : Yields (n := n) p (.error e) := nofun

/-- Reading one thing and then another, from what the first left. -/
theorem bind {r : Except SyntaxError (Parsed α m)}
    {f : Parsed α m → Except SyntaxError (Parsed β n)} (h : Yields p r)
    (hf : ∀ x, p x.rest x.value → Token.Plains x.rest → x.rest.length < m → Yields q (f x)) :
    Yields q (r >>= f) := by
  cases r with
  | error e => exact error
  | ok x => exact hf x (h x rfl).1 (h x rfl).2 x.shorter

theorem bind_of {r : Except SyntaxError γ} {f : γ → Except SyntaxError (Parsed β n)}
    (hf : ∀ x, r = .ok x → Yields q (f x)) : Yields q (r >>= f) := by
  cases r with
  | error e => exact error
  | ok x => exact hf x rfl

end Yields

open Scope

/-- A token that is expected is the next one. -/
theorem yields_expect (s : Scope) (kind : TokenKind) {ts : List Token} (ht : Token.Plains ts) :
    Yields (fun rest t => t.kind = kind ∧ t.Plain ∧ ts = t :: rest) (s.expect kind ts) := by
  unfold expect
  split
  · exact .error
  · rename_i t rest
    split
    · exact .ok ⟨‹_›, ht.head, rfl⟩ ht.tail
    · exact .error

theorem plains_dottedPath {ts : List Token} (ht : Token.Plains ts) :
    Token.Plains (dottedPath ts).2 := by
  fun_induction dottedPath ts with
  | case1 d t rest h ih => exact ih ht.tail.tail
  | case2 => exact ht
  | case3 => exact ht

/-- A path is made of single names. -/
theorem undotted_dottedPath {ts : List Token} (ht : Token.Plains ts) :
    ∀ w ∈ (dottedPath ts).1, Undotted w := by
  fun_induction dottedPath ts with
  | case1 d t rest h ih =>
    simp only [Bool.and_eq_true, decide_eq_true_iff] at h
    exact List.forall_mem_cons.2 ⟨(ht.tail.head.identifier h.2).2, ih ht.tail.tail⟩
  | case2 => simp
  | case3 => simp

/-- The last name of a path is a single one. -/
theorem undotted_splitPath {first : String} {more : List String} (hfirst : Undotted first)
    (hmore : ∀ w ∈ more, Undotted w) : Undotted (splitPath first more).1 :=
  List.forall_mem_cons.2 ⟨hfirst, hmore⟩ _ (List.getLast_mem _)

/-- A folded number is sound: it is spelled from its value. -/
theorem sound_fold {op : Token} {left right e : Expr} (h : fold op left right = .ok e) :
    e.Sound := by
  unfold fold at h
  split at h
  · dsimp only at h
    have hnumber : ∀ {x : Float} {raw : String} {pos : Pos}, Except.ok (.number x raw pos) =
        (.ok e : Except SyntaxError Expr) → e.Sound :=
          fun h => Except.ok.inj h ▸ .literal trivial rfl
    split at h
    case h_4 =>
      split at h
      · cases h
      · exact hnumber h
    all_goals exact hnumber h
  · cases h

/-- A signed number is sound. -/
theorem sound_applySign {op : Token} {operand e : Expr} (h : applySign op operand = .ok e) :
    e.Sound := by
  unfold applySign at h
  split at h
  · split at h <;> exact Except.ok.inj h ▸ .literal trivial rfl
  · cases h

/-- Fewer tokens come before an earlier function. -/
theorem sooner {m n i j : Nat} (h : m < n ∨ m = n ∧ i < j) :
    Prod.Lex (· < ·) (· < ·) (m, i) (n, j) :=
  Prod.lex_def.2 h

mutual

/-- Every expression that is read is sound. -/
theorem yields_expr (s : Scope) (ts : List Token) (ht : Token.Plains ts) :
    Yields Expr.SoundBefore (expr s ts) := by
  rw [expr]
  exact .bind_of fun inner _ => yields_additive inner ts ht
termination_by (ts.length, 9)
decreasing_by exact Prod.Lex.right _ (by decide)

theorem yields_additive (s : Scope) (ts : List Token) (ht : Token.Plains ts) :
    Yields Expr.SoundBefore (additive s ts) := by
  rw [additive]
  refine .bind (yields_multiplicative s ts ht) fun l hl htl hltl => ?_
  exact .bind (yields_sums s l.value l.rest hl htl) fun r hr htr _ => .ok hr htr
termination_by (ts.length, 8)
decreasing_by all_goals exact sooner (by omega)

/-- What is read behind a sum is sound. -/
theorem yields_sums (s : Scope) (left : Expr) (ts : List Token) (hleft : left.SoundBefore ts)
    (ht : Token.Plains ts) : Yields Expr.SoundBefore (sums s left ts) := by
  match ts, hleft, ht with
  | [], hleft, ht =>
    rw [sums]
    exact .ok hleft ht
  | op :: more, hleft, ht =>
    have hcons : (op :: more).length = more.length + 1 := rfl
    rw [sums]
    split
    · refine .bind (yields_multiplicative s more ht.tail) fun r hr htr hltr => ?_
      refine .bind_of fun v hv => ?_
      exact .bind (yields_sums s v r.rest (.inl (sound_fold hv)) htr) fun z hz htz _ => .ok hz htz
    · exact .ok hleft ht
termination_by (ts.length, 0)
decreasing_by all_goals exact sooner (by omega)

theorem yields_multiplicative (s : Scope) (ts : List Token) (ht : Token.Plains ts) :
    Yields Expr.SoundBefore (multiplicative s ts) := by
  rw [multiplicative]
  refine .bind (yields_unary s ts ht) fun l hl htl hltl => ?_
  exact .bind (yields_products s l.value l.rest hl htl) fun r hr htr _ => .ok hr htr
termination_by (ts.length, 7)
decreasing_by all_goals exact sooner (by omega)

/-- What is read behind a product is sound. -/
theorem yields_products (s : Scope) (left : Expr) (ts : List Token) (hleft : left.SoundBefore ts)
    (ht : Token.Plains ts) : Yields Expr.SoundBefore (products s left ts) := by
  match ts, hleft, ht with
  | [], hleft, ht =>
    rw [products]
    exact .ok hleft ht
  | op :: more, hleft, ht =>
    have hcons : (op :: more).length = more.length + 1 := rfl
    rw [products]
    split
    · refine .bind (yields_unary s more ht.tail) fun r hr htr hltr => ?_
      refine .bind_of fun v hv => ?_
      exact .bind (yields_products s v r.rest (.inl (sound_fold hv)) htr) fun z hz htz _ =>
        .ok hz htz
    · exact .ok hleft ht
termination_by (ts.length, 0)
decreasing_by all_goals exact sooner (by omega)

/-- What is read as an operand with signs is sound. -/
theorem yields_unary (s : Scope) (ts : List Token) (ht : Token.Plains ts) :
    Yields Expr.SoundBefore (unary s ts) := by
  match ts, ht with
  | [], ht =>
    rw [unary]
    exact .error
  | op :: more, ht =>
    have hcons : (op :: more).length = more.length + 1 := rfl
    rw [unary]
    split
    · refine .bind (yields_unary s more ht.tail) fun r hr htr hltr => ?_
      exact .bind_of fun v hv => .ok (.inl (sound_applySign hv)) htr
    · exact yields_primary s op more ht
termination_by (ts.length, 6)
decreasing_by all_goals exact sooner (by omega)

/-- What is read as an operand is sound. -/
theorem yields_primary (s : Scope) (t : Token) (rest : List Token) (ht : Token.Plains (t :: rest)) :
    Yields Expr.SoundBefore (primary s t rest) := by
  have hliteral : ∀ {e : Expr}, e.Spelled → e.calls = [] →
      Yields Expr.SoundBefore (.ok (⟨e, rest, by simp⟩ : Parsed Expr (rest.length + 1))) :=
    fun h hcalls => .ok (.inl (.literal h hcalls)) ht.tail
  rw [primary.eq_def]
  dsimp only
  split
  · rw [numeral]
    split
    · exact hliteral trivial rfl
    · exact .error
  · exact hliteral trivial rfl
  · rename_i hkind
    exact hliteral ⟨ht.head.color hkind, rfl⟩ rfl
  · exact hliteral (named_surfaceOf t) rfl
  · rename_i hkind
    rcases ht.2.1 hkind with hend | hsource
    · exact .ok (.inr ⟨hend, _, _, rfl⟩) ht.tail
    · exact hliteral hsource rfl
  · refine .bind (yields_expr s rest ht.tail) fun e he hte hlte => ?_
    refine .bind (yields_expect s .rparen hte) fun close hclose htc _ => ?_
    exact .ok (.inl (he.sound hclose.2.2)) htc
  · split
    · exact hliteral trivial rfl
    · split
      · refine .bind (yields_pinnedCall s t.pos rest ht.tail) fun c hc htc hltc => ?_
        exact .bind (yields_chainAfter s c.value hc c.rest htc) fun e he hte _ => .ok he hte
      · exact .error
  · rename_i hkind
    exact yields_named s t (ht.head.identifier hkind).2 rest ht.tail
  · exact .error
termination_by (rest.length + 1, 0)
decreasing_by all_goals exact sooner (by omega)

/-- What is read behind a call is sound. -/
theorem yields_chainAfter (s : Scope) (c : Call) (hc : c.Sound) (ts : List Token)
    (ht : Token.Plains ts) :
    Yields Expr.SoundBefore (chainAfter s c ts) := by
  rw [chainAfter]
  split
  · refine .bind
      (yields_chainTail s { calls := [c], pos := c.pos } ⟨by simpa using hc, nofun⟩ ts ht)
      fun ch hch htch hltch => ?_
    exact .ok (.inl ((Expr.sound_chain _).2 hch)) htch
  · exact .ok (.inl ((Expr.sound_call _).2 hc)) ht
termination_by (ts.length, 5)
decreasing_by exact Prod.Lex.right _ (by decide)

/-- What is read behind a first name is sound. -/
theorem yields_named (s : Scope) (first : Token) (hfirst : Undotted first.word) (rest : List Token)
    (ht : Token.Plains rest) : Yields Expr.SoundBefore (named s first rest) := by
  rw [named]
  dsimp only
  split
  · exact .ok (.inl (.literal trivial rfl)) (ht.drop 2)
  · split
    · refine .bind
        (yields_chainTail s { base := some first.word, pos := first.pos } ⟨by simp, nofun⟩ rest ht)
        fun ch hch htch hltch => ?_
      exact .ok (.inl ((Expr.sound_chain _).2 hch)) htch
    · split
      · exact .ok (.inl (.literal hfirst rfl)) ht
      · have hnames := undotted_dottedPath ht
        split
        · have hpath := length_dottedPath rest
          refine .bind (yields_call s _ (undotted_splitPath hfirst hnames) _ first.pos _
            (plains_dottedPath ht))
            fun c hc htc hltc => ?_
          exact .bind (yields_chainAfter s c.value hc c.rest htc) fun e he hte _ => .ok he hte
        · refine .ok (.inl ?_) (plains_dottedPath ht)
          split
          · exact .literal hfirst rfl
          · exact .literal (List.forall_mem_cons.2 ⟨hfirst, hnames⟩) rfl
termination_by (rest.length, 6)
decreasing_by all_goals exact sooner (by omega)

/-- A call pinned to a namespace is sound. -/
theorem yields_pinnedCall (s : Scope) (at' : Pos) (ts : List Token) (ht : Token.Plains ts) :
    Yields (fun _ c => c.Sound) (pinnedCall s at' ts) := by
  rw [pinnedCall]
  refine .bind (yields_expect s .lparen ht) fun paren _ htp hltp => ?_
  split
  · exact .error
  · rename_i ns more hr
    have hcons : paren.rest.length = more.length + 1 := by rw [hr]; rfl
    rw [hr] at htp
    split
    · refine .bind (yields_expect s .comma htp.tail) fun comma _ htm hltm => ?_
      refine .bind (yields_expect s .identifier htm) fun name hname htn hltn => ?_
      refine .bind (yields_call s _ (hname.2.1.identifier hname.1).2 [] _ name.rest htn)
        fun c hc htc hltc => ?_
      exact .bind (yields_expect s .rparen htc) fun close _ htl _ => .ok ⟨hc.name, hc.written⟩ htl
    · exact .error
termination_by (ts.length, 0)
decreasing_by all_goals exact sooner (by omega)

/-- A call whose name has no dot is sound. -/
theorem yields_call (s : Scope) (name : String) (hname : Undotted name) (qual : List String)
    (at' : Pos) (ts : List Token) (ht : Token.Plains ts) :
    Yields (fun _ c => c.Sound) (call s name qual at' ts) := by
  rw [call]
  refine .bind (yields_expect s .lparen ht) fun paren _ htp hltp => .bind_of fun inner _ => ?_
  refine .bind (yields_arguments inner [] [] (by simp) (by simp) paren.rest htp)
    fun args hargs hta hlta => ?_
  refine .bind (yields_expect s .rparen hta) fun close hclose htc _ => .ok ⟨hname, ?_⟩ htc
  have hall := hargs fun hend => nomatch hclose.2.2.symm.trans hend
  intro w hw
  rcases List.mem_append.1 hw with h | h
  · exact hall.1 w h
  · obtain ⟨k, hk, rfl⟩ := List.mem_map.1 h
    exact hall.2 k hk
termination_by (ts.length, 4)
decreasing_by all_goals exact sooner (by omega)

/-- The last of the arguments may be a closure that nothing ends. -/
theorem yields_arguments (s : Scope) (args : List Expr) (kwargs : List Keyword)
    (hargs : ∀ e ∈ args, e.Sound) (hkwargs : ∀ k ∈ kwargs, k.value.Sound) (ts : List Token)
    (ht : Token.Plains ts) :
    Yields (fun rest r => rest ≠ [] → (∀ e ∈ r.1, e.Sound) ∧ ∀ k ∈ r.2, k.value.Sound)
      (arguments s args kwargs ts) := by
  rw [arguments.eq_def]
  dsimp only
  split
  · exact .ok (fun _ => ⟨hargs, hkwargs⟩) ht
  · split
    · exact .error
    · split
      · split
        · exact .error
        · have hdrop : (ts.drop 2).length ≤ ts.length := by simp
          refine .bind (yields_expr s (ts.drop 2) (ht.drop 2)) fun v hv htv hltv => ?_
          split
          · rename_i c more hr
            have hcons : v.rest.length = more.length + 1 := by rw [hr]; rfl
            have hsound := hv.sound hr
            have hall : ∀ k ∈ kwargs ++ [⟨(s.peek ts).word, v.value, (s.peek ts).pos⟩],
                k.value.Sound := by
              simpa [or_imp, forall_and, hsound] using hkwargs
            split
            · exact .bind (yields_arguments s args _ hargs hall more (hr ▸ htv).tail)
                fun z hz htz _ => .ok hz htz
            · exact .ok (fun _ => ⟨hargs, hall⟩) htv
          · exact .ok (fun hne => absurd rfl hne) .nil
      · refine .bind (yields_expr s ts ht) fun v hv htv hltv => ?_
        split
        · rename_i c more hr
          have hcons : v.rest.length = more.length + 1 := by rw [hr]; rfl
          have hsound := hv.sound hr
          have hall : ∀ e ∈ args ++ [v.value], e.Sound := by
            simpa [or_imp, forall_and, hsound] using hargs
          split
          · exact .bind (yields_arguments s _ kwargs hall hkwargs more (hr ▸ htv).tail)
              fun z hz htz _ => .ok hz htz
          · exact .ok (fun _ => ⟨hall, hkwargs⟩) htv
        · exact .ok (fun hne => absurd rfl hne) .nil
termination_by (ts.length, 10)
decreasing_by all_goals exact sooner (by omega)

/-- The rest of a chain keeps its calls sound. -/
theorem yields_chainTail (s : Scope) (ch : Chain) (hch : ch.Sound) (ts : List Token)
    (ht : Token.Plains ts) :
    Yields (fun _ ch => ch.Sound) (chainTail s ch ts) := by
  match ts, ht with
  | [], ht =>
    rw [chainTail]
    exact .ok hch ht
  | [dot], ht =>
    rw [chainTail]
    split
    · exact .ok hch ht
    · exact .error
  | dot :: t :: rest, ht =>
    have hcons : (dot :: t :: rest).length = rest.length + 2 := rfl
    have hplain := ht.tail.head
    have hrest := ht.tail.tail
    have hmore : ∀ {c : Call}, c.Sound → ({ ch with calls := ch.calls ++ [c] } : Chain).Sound := by
      intro c hc
      exact ⟨by simpa [or_imp, forall_and, hc] using hch.calls, hch.out⟩
    rw [chainTail]
    split
    · exact .ok hch ht
    · split
      · refine .bind (yields_pinnedCall s t.pos rest hrest) fun c hc htc hltc => ?_
        exact .bind (yields_chainTail s { ch with calls := ch.calls ++ [c.value] } (hmore hc)
          c.rest htc)
          fun z hz htz _ => .ok hz htz
      · split
        · exact .error
        · rename_i hkind
          split
          · have hdrop : (rest.drop 1).length ≤ rest.length := by simp
            refine .bind (yields_outTarget s t.pos (rest.drop 1) (hrest.drop 1))
              fun target htarget htt _ => ?_
            split
            · exact .error
            · refine .ok ⟨hch.calls, fun x pos hx => ?_⟩ htt
              exact ((Expr.sound_iff _).1 (Option.some.inj hx ▸ htarget)).1
          · have hpath := length_dottedPath rest
            have hname :=
              undotted_splitPath (hplain.identifier (not_not.1 hkind)).2 (undotted_dottedPath hrest)
            refine .bind (yields_call s _ hname _ t.pos _ (plains_dottedPath hrest))
              fun c hc htc hltc => ?_
            exact .bind (yields_chainTail s { ch with calls := ch.calls ++ [c.value] } (hmore hc)
              c.rest htc)
              fun z hz htz _ => .ok hz htz
termination_by (ts.length, 3)
decreasing_by all_goals exact sooner (by omega)

/-- The target of an output is sound. -/
theorem yields_outTarget (s : Scope) (at' : Pos) (ts : List Token) (ht : Token.Plains ts) :
    Yields (fun _ e => e.Sound) (outTarget s at' ts) := by
  rw [outTarget]
  split
  · exact .ok (.literal Surface.named_default rfl) (ht.drop 1)
  · refine .bind (yields_expr s ts ht) fun e he hte hlte => ?_
    exact .bind (yields_expect s .rparen hte) fun close hclose htc _ =>
      .ok (he.sound hclose.2.2) htc
termination_by (ts.length, 10)
decreasing_by exact Prod.Lex.right _ (by decide)

end

end Parser

/-! ## statements -/

mutual

/-- The expressions a statement binds and the chains it runs. -/
def Stmt.exprs : Stmt → List Expr
  | .bind _ e _ => [e]
  | .run ch _ => [.chain ch]
  | .choose arms none _ => exprsArms arms
  | .choose arms (some body) _ => exprsArms arms ++ exprsBlock body
  | .repeated _ body _ => exprsBlock body
  | .leaveLoop _ | .nextRound _ | .finish _ => []

def Stmt.exprsBlock : List Stmt → List Expr
  | [] => []
  | st :: rest => st.exprs ++ exprsBlock rest

def Stmt.exprsArms : List (BranchOf Stmt) → List Expr
  | [] => []
  | ⟨_, body, _⟩ :: rest => exprsBlock body ++ exprsArms rest

end

/-- The expressions of a block, one part after the other. -/
@[simp] theorem Stmt.exprsBlock_append (as bs : List Stmt) :
    exprsBlock (as ++ bs) = exprsBlock as ++ exprsBlock bs := by
  induction as with
  | nil => simp [exprsBlock]
  | cons st as ih => simp [exprsBlock, ih]

@[simp] theorem Stmt.exprsArms_append (as bs : List Branch) :
    exprsArms (as ++ bs) = exprsArms as ++ exprsArms bs := by
  induction as with
  | nil => simp [exprsArms]
  | cons arm as ih => simp [exprsArms, ih]

mutual

/-- All expressions of a statement: also its conditions and its counts. -/
def Stmt.terms : Stmt → List Expr
  | .bind _ e _ => [e]
  | .run ch _ => [.chain ch]
  | .choose arms none _ => termsArms arms
  | .choose arms (some body) _ => termsArms arms ++ termsBlock body
  | .repeated none body _ => termsBlock body
  | .repeated (some count) body _ => count :: termsBlock body
  | .leaveLoop _ | .nextRound _ | .finish _ => []

def Stmt.termsBlock : List Stmt → List Expr
  | [] => []
  | st :: rest => st.terms ++ termsBlock rest

def Stmt.termsArms : List (BranchOf Stmt) → List Expr
  | [] => []
  | ⟨cond, body, _⟩ :: rest => cond :: termsBlock body ++ termsArms rest

end

@[simp] theorem Stmt.termsBlock_append (as bs : List Stmt) :
    termsBlock (as ++ bs) = termsBlock as ++ termsBlock bs := by
  induction as with
  | nil => simp [termsBlock]
  | cons st as ih => simp [termsBlock, ih]

@[simp] theorem Stmt.termsArms_append (as bs : List Branch) :
    termsArms (as ++ bs) = termsArms as ++ termsArms bs := by
  induction as with
  | nil => simp [termsArms]
  | cons arm as ih => simp [termsArms, ih]

/-- The expressions of the statements are as they can be spelled. -/
def Stmt.SoundBlock (body : List Stmt) : Prop := ∀ e ∈ termsBlock body, e.Sound

/-- So are those of all statements but one that binds a closure that nothing ends. -/
def Stmt.SoundBefore (rest : List Token) (body : List Stmt) : Prop :=
  SoundBlock body ∨ rest = [] ∧ ∃ name source pos pos',
    body = [.bind name (.closure source pos) pos']

namespace Stmt

variable {as bs : List Stmt}

theorem SoundBlock.nil : SoundBlock [] := by simp [SoundBlock, termsBlock]

theorem SoundBlock.append (ha : SoundBlock as) (hb : SoundBlock bs) : SoundBlock (as ++ bs) := by
  rw [SoundBlock, termsBlock_append]
  exact List.forall_mem_append.2 ⟨ha, hb⟩

theorem soundBlock_singleton {st : Stmt} : SoundBlock [st] ↔ ∀ e ∈ st.terms, e.Sound := by
  simp [SoundBlock, termsBlock]

theorem SoundBefore.sound {t : Token} {rest ts : List Token} (h : SoundBefore rest as)
    (hrest : rest = t :: ts) :
    SoundBlock as :=
  h.resolve_right fun hend => nomatch hrest.symm.trans hend.1

end Stmt

namespace Parser

open Scope Stmt

theorem plains_skipSemicolons {ts : List Token} (ht : Token.Plains ts) :
    Token.Plains (skipSemicolons ts) :=
  ht.dropWhile _

/-- A binding holds sound expressions. -/
theorem yields_letBinding (s : Scope) (at' : Pos) {ts : List Token} (ht : Token.Plains ts) :
    Yields (fun rest r => SoundBefore rest [r.2]) (letBinding s at' ts) := by
  unfold letBinding
  refine .bind (yields_expect s .identifier ht) fun name _ htn _ => ?_
  refine .bind (yields_expect s .assign htn) fun eq _ hte _ => ?_
  refine .bind (yields_expr s eq.rest hte) fun v hv htv _ => .ok ?_ htv
  rcases hv with hv | ⟨hend, source, pos, hclosure⟩
  · exact .inl (soundBlock_singleton.2 (by simpa [terms] using hv))
  · exact .inr ⟨hend, _, source, pos, at', by rw [hclosure]⟩

/-- A chain statement is read with sound terms. -/
theorem yields_chainStatement (s : Scope) {ts : List Token} (ht : Token.Plains ts) :
    Yields (fun _ st => SoundBlock [st]) (chainStatement s ts) := by
  have hsound : ∀ {rest : List Token} {e : Expr}, e.SoundBefore rest →
      (∀ source pos, e ≠ .closure source pos) →
      e.Sound := fun h hne => h.resolve_right fun ⟨_, source, pos, heq⟩ => hne source pos heq
  unfold chainStatement
  refine .bind (yields_expr s ts ht) fun e he hte _ => ?_
  split
  · rename_i ch hch
    rw [hch] at he
    exact .ok (soundBlock_singleton.2 (by simpa [terms] using hsound he (by simp))) hte
  · rename_i c hc
    rw [hc] at he
    have hcall := (Expr.sound_call c).1 (hsound he (by simp))
    refine .ok (soundBlock_singleton.2 ?_) hte
    simp only [terms, List.mem_singleton, forall_eq, Expr.sound_chain]
    exact ⟨by simpa using hcall, nofun⟩
  · exact .error

/-- A `render` holds no expression. -/
theorem yields_renderTarget (s : Scope) (found : Found) (at' : Pos) {ts : List Token}
    (ht : Token.Plains ts) :
    Yields (fun _ target => target.1.Named) (renderTarget s found at' ts) := by
  unfold renderTarget
  split
  · exact .error
  · split
    · exact .error
    · refine .bind (yields_expect s .lparen ht) fun paren _ htp _ => ?_
      refine .bind (yields_expect s .surface htp) fun target _ htt _ => ?_
      exact .bind (yields_expect s .rparen htt) fun close _ htc _ => .ok (named_surfaceOf _) htc

/-- The render target, if there is one, is a surface of the language. -/
def Found.Sound (found : Found) : Prop := ∀ target ∈ found.render, target.1.Named

mutual

/-- What is read as a statement is sound. -/
theorem yields_statement (s : Scope) (found : Found) (hfound : found.Sound) (ts : List Token)
    (ht : Token.Plains ts) :
    Yields (fun rest r => SoundBefore rest r.1 ∧ r.2.Sound) (statement s found ts) := by
  match ts, ht with
  | [], ht =>
    rw [statement]
    exact .bind (yields_chainStatement _ ht) fun st hst hts _ => .ok ⟨.inl hst, hfound⟩ hts
  | t :: rest, ht =>
    have hcons : (t :: rest).length = rest.length + 1 := rfl
    have hrest : Token.Plains rest := ht.tail
    rw [statement]
    dsimp only
    split
    · exact .bind (yields_letBinding _ t.pos hrest) fun b hb htb _ => .ok ⟨hb, hfound⟩ htb
    · split
      · refine .bind
          (yields_branches _ found hfound t.pos [] (by simp [termsArms]) rest hrest t.pos)
          fun z hz htz _ => .ok ⟨.inl hz.1, hz.2⟩ htz
      · split
        · split
          · refine .bind (yields_block _ found hfound rest hrest) fun body hbody htb _ => ?_
            exact .ok ⟨.inl (soundBlock_singleton.2 (by rw [terms]; exact hbody.1.1)),
              hbody.1.2⟩ htb
          · refine .bind (yields_expr _ rest hrest) fun count hc htc hltc => ?_
            refine .bind (yields_block _ found hfound count.rest htc) fun body hbody htb _ => ?_
            obtain ⟨⟨hbody, hrender⟩, brace, more, hbrace⟩ := hbody
            refine .ok ⟨.inl (soundBlock_singleton.2 ?_), hrender⟩ htb
            rw [terms]
            exact List.forall_mem_cons.2 ⟨hc.sound hbrace, hbody⟩
        · split
          · split
            · refine .ok ⟨.inl (soundBlock_singleton.2 ?_), hfound⟩ hrest
              split <;> simp [terms]
            · exact .error
          · split
            · exact .ok ⟨.inl (soundBlock_singleton.2 (by simp [terms])), hfound⟩ hrest
            · split
              · refine .bind (yields_renderTarget _ found t.pos hrest) fun target htarget htt _ =>
                  ?_
                refine .ok ⟨.inl .nil, ?_⟩ htt
                simpa [Found.Sound] using htarget
              · split
                · refine .bind (yields_expect _ .identifier hrest) fun name _ htn hltn => ?_
                  refine .bind (yields_expect _ .lbrace htn) fun brace _ htb hltb =>
                    .bind_of fun inner _ => ?_
                  exact .bind (yields_body _ found hfound brace.rest htb) fun b hb htb _ =>
                    .ok ⟨.inl hb.1, hb.2⟩ htb
                · split
                  · exact .error
                  · exact .bind (yields_chainStatement _ ht) fun st hst hts _ =>
                      .ok ⟨.inl hst, hfound⟩ hts
termination_by (ts.length, 2)
decreasing_by all_goals exact sooner (by omega)

/-- The arms of a choice are sound. -/
theorem yields_branches (s : Scope) (found : Found) (hfound : found.Sound) (start : Pos)
    (arms : List Branch) (harms : ∀ e ∈ termsArms arms, e.Sound) (ts : List Token)
    (ht : Token.Plains ts) (at' : Pos) :
    Yields (fun _ r => SoundBlock [r.1] ∧ r.2.Sound) (branches s found start arms ts at') := by
  rw [branches]
  dsimp only
  refine .bind (yields_expr _ ts ht) fun cond hc htc hltc => ?_
  refine .bind (yields_block _ found hfound cond.rest htc) fun body hbody htb hltb => ?_
  obtain ⟨⟨hbody, hrender⟩, brace, more, hbrace⟩ := hbody
  have hall : ∀ e ∈ termsArms (arms ++ [⟨cond.value, body.value.1, at'⟩]), e.Sound := by
    simp only [termsArms_append, termsArms, List.append_nil, List.mem_append, List.mem_cons]
    rintro e (he | rfl | he)
    · exact harms e he
    · exact hc.sound hbrace
    · exact hbody e he
  have hnone : ∀ {arms : List Branch} {pos : Pos}, (∀ e ∈ termsArms arms, e.Sound) →
      SoundBlock [.choose arms none pos] :=
        fun h => soundBlock_singleton.2 (by simpa [terms] using h)
  split
  · exact .ok ⟨hnone hall, hrender⟩ .nil
  · rename_i t rest hr
    have hcons : body.rest.length = rest.length + 1 := by rw [hr]; rfl
    have hrest : Token.Plains rest := (hr ▸ htb).tail
    split
    · exact .bind (yields_branches _ body.value.2 hrender start _ hall rest hrest t.pos)
        fun z hz htz _ => .ok hz htz
    · split
      · refine .bind (yields_block _ body.value.2 hrender rest hrest) fun b hb htb _ => ?_
        refine .ok ⟨soundBlock_singleton.2 ?_, hb.1.2⟩ htb
        simp only [terms, List.mem_append]
        rintro e (he | he)
        · exact hall e he
        · exact hb.1.1 e he
      · exact .ok ⟨hnone hall, hrender⟩ htb
termination_by (ts.length, 1)
decreasing_by all_goals exact sooner (by omega)

/-- A block in braces is sound. -/
theorem yields_block (s : Scope) (found : Found) (hfound : found.Sound) (ts : List Token)
    (ht : Token.Plains ts) :
    Yields (fun _ r => (SoundBlock r.1 ∧ r.2.Sound) ∧ ∃ brace more, ts = brace :: more)
      (block s found ts) := by
  rw [block]
  refine .bind (yields_expect s .lbrace ht) fun brace hbrace htb hltb => .bind_of fun inner _ => ?_
  exact .bind (yields_body _ found hfound brace.rest htb) fun b hb htb _ =>
    .ok ⟨hb, _, _, hbrace.2.2⟩ htb
termination_by (ts.length, 1)
decreasing_by all_goals exact sooner (by omega)

/-- The statements of a block are sound. -/
theorem yields_body (s : Scope) (found : Found) (hfound : found.Sound) (ts : List Token)
    (ht : Token.Plains ts) :
    Yields (fun _ r => SoundBlock r.1 ∧ r.2.Sound) (body s found ts) := by
  have hskip := plains_skipSemicolons ht
  have hle := length_skipSemicolons ts
  rw [body]
  split
  · exact .error
  · rename_i t rest hr
    have hsize : (t :: rest).length ≤ ts.length := hr ▸ hle
    rw [hr] at hskip
    split
    · exact .ok ⟨.nil, hfound⟩ hskip.tail
    · split
      · exact .error
      · refine .bind (yields_statement s found hfound (t :: rest) hskip) fun st hst hts hlts => ?_
        refine .bind (yields_body s st.value.2 hst.2 st.rest hts) fun more hmore htm hlt => ?_
        refine .ok ⟨.append ?_ hmore.1, hmore.2⟩ htm
        -- the brace that ends the block stands behind the statement
        obtain ⟨next, others, hnext⟩ := List.exists_cons_of_length_pos (Nat.zero_lt_of_lt hlt)
        exact hst.1.sound hnext
termination_by (ts.length, 3)
decreasing_by all_goals exact sooner (by omega)

end

end Parser

/-! ## programs -/

namespace Parser

open Scope Stmt

theorem statements_nil (s : Scope) (found : Found) : statements s found [] = .ok ([], found) := by
  rw [statements]
  rfl

/-- A closure that nothing ends is bound by the last statement. -/
theorem sound_statements (s : Scope) (found : Found) (hfound : found.Sound) (ts : List Token)
    (ht : Token.Plains ts) {r : List Stmt × Found} (h : statements s found ts = .ok r) :
    (∃ init last, r.1 = init ++ last ∧ SoundBlock init ∧ SoundBefore [] last) ∧ r.2.Sound := by
  have hskip := plains_skipSemicolons ht
  have hle := length_skipSemicolons ts
  rw [statements] at h
  split at h
  · obtain rfl := Except.ok.inj h
    exact ⟨⟨[], [], rfl, .nil, .inl .nil⟩, hfound⟩
  · rename_i t rest hr
    have hsize : (t :: rest).length ≤ ts.length := hr ▸ hle
    rw [hr] at hskip
    split at h
    · obtain rfl := Except.ok.inj h
      exact ⟨⟨[], [], rfl, .nil, .inl .nil⟩, hfound⟩
    · obtain ⟨st, hst, h⟩ := exists_of_bind h
      obtain ⟨more, hmore, h⟩ := exists_of_bind h
      obtain rfl := Except.ok.inj h
      obtain ⟨⟨hfirst, hrender⟩, hplain⟩ := yields_statement s found hfound _ hskip st hst
      have hlt := st.shorter
      obtain ⟨⟨init, last, hothers, hinit, hlast⟩, hsound⟩ :=
        sound_statements s st.value.2 hrender st.rest hplain hmore
      refine ⟨?_, hsound⟩
      rcases hfirst with hfirst | ⟨hend, hclosure⟩
      · exact ⟨st.value.1 ++ init, last, by rw [hothers, List.append_assoc],
          hfirst.append hinit, hlast⟩
      · have hnone : more.1 = [] := by
          rw [hend, statements_nil] at hmore
          rw [← Except.ok.inj hmore]
        exact ⟨[], st.value.1, by rw [hnone]; simp, .nil, .inr ⟨rfl, hclosure⟩⟩
termination_by ts.length

/-- No name of a search order holds a newline. -/
theorem yields_searchNames (s : Scope) (found : List String)
    (hfound : ∀ name ∈ found, '\n' ∉ name.toList) (ts : List Token) (ht : Token.Plains ts) :
    Yields (fun _ names => ∀ name ∈ names, '\n' ∉ name.toList) (searchNames s found ts) := by
  rw [searchNames]
  refine .bind (yields_expect s .identifier ht) fun name hname htn hltn => ?_
  dsimp only
  have hall : ∀ x ∈ (if found.contains name.value.word then found else found ++ [name.value.word]),
      '\n' ∉ x.toList := by
    split
    · exact hfound
    · simp only [List.mem_append, List.mem_singleton]
      rintro x (hx | rfl)
      · exact hfound x hx
      · exact (hname.2.1.identifier hname.1).1
  split
  · exact .ok hall .nil
  · rename_i c rest hr
    have hcons : name.rest.length = rest.length + 1 := by rw [hr]; rfl
    split
    · exact .bind (yields_searchNames s _ hall rest (hr ▸ htn).tail) fun z hz htz _ => .ok hz htz
    · exact .ok hall htn
termination_by ts.length

/-- The header gives names without newlines and leaves plain tokens. -/
theorem plains_header {s : Scope} (hlast : s.last.Plain) {ts rest : List Token}
    {names : List String} (ht : Token.Plains ts) (h : header s ts = .ok (names, rest)) :
    (∀ name ∈ names, '\n' ∉ name.toList) ∧ Token.Plains rest := by
  unfold header at h
  split at h
  · rename_i t more
    split at h
    · obtain ⟨x, hx, h⟩ := exists_of_bind h
      obtain ⟨rfl, rfl⟩ := Prod.mk.inj (Except.ok.inj h)
      exact yields_searchNames s [] (by simp) more ht.tail x hx
    · split at h
      · rename_i hname
        obtain ⟨rfl, rfl⟩ := Prod.mk.inj (Except.ok.inj h)
        have hpeek : (s.peek more).Plain := by
          cases more with
          | nil => exact hlast
          | cons t more => exact ht.tail.head
        simp only [Bool.and_eq_true, decide_eq_true_iff] at hname
        exact ⟨by simpa using (hpeek.identifier hname.2).1, ht⟩
      · cases h
  · cases h

end Parser

/-- The statements of a parsed program are spelled as expressions are, but for one at the end that
binds a closure that nothing ends; its render target is a surface of the language, and the names it
searches stand on one line. -/
structure Program.Sound (p : Program) : Prop where
  statements : ∃ init last, p.statements = init ++ last ∧ Stmt.SoundBlock init ∧
    Stmt.SoundBefore [] last
  render : ∀ target ∈ p.render, target.1.Named
  search : ∀ name ∈ p.search, '\n' ∉ name.toList

/-- Every expression of a parsed program is sound. -/
theorem Program.sound_parse {options : Options} {source : Bytes} {p : Program}
    (h : Program.parse options source = .ok p) : p.Sound := by
  unfold parse at h
  split at h
  · rename_i q hq
    obtain rfl := Except.ok.inj h
    obtain ⟨ts, hts, hq⟩ := exists_of_bind hq
    obtain ⟨init, last, rfl, hend, hlast, hinit⟩ := Token.plains_scan hts
    have hsplit : Parser.splitLast (init ++ [last]) = (init, last) := by
      rw [Parser.splitLast, List.getLast?_concat]
      dsimp only
      rw [if_pos hend, List.dropLast_concat]
    unfold ofTokens at hq
    rw [hsplit] at hq
    dsimp only at hq
    obtain ⟨⟨search, rest⟩, hheader, hq⟩ := exists_of_bind hq
    obtain ⟨⟨stmts, found⟩, hstmts, hq⟩ := exists_of_bind hq
    obtain rfl := Except.ok.inj hq
    obtain ⟨hnames, hrest⟩ :=
      Parser.plains_header hlast (Parser.plains_skipSemicolons hinit) hheader
    obtain ⟨hstatements, hrender⟩ :=
      Parser.sound_statements _ _ (by simp [Parser.Found.Sound]) rest hrest hstmts
    exact ⟨hstatements, hrender, hnames⟩
  · cases h

end EffectChain
