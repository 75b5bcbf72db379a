import EffectChain.Proofs.Source.Position
import EffectChain.Proofs.Text.Trimmed
import EffectChain.Token.Lexer

/-!
# EffectChain.Proofs.Token.Closures

Bodies of closures, wherever they stand.

The length of a body is found by going over its bytes with the brackets that are open and the quotes
around the place (`Lexer.BodyState`).  A body that something ends is one that leads from no brackets
to no brackets (`Lexer.Balanced`), and so it has the same length wherever it stands, also within
brackets of another body (`Lexer.Balanced.closureBodyLength`).  Only ASCII bytes matter, so that a
body is balanced after its stray bytes were replaced (`Lexer.Balanced.encode_decode`).

* `Lexer.closureSource_lexeme` — the body of a closure that something ends;
* `Lexer.lexeme_closure` — such a body behind an arrow is a closure with this body.
-/

namespace EffectChain

namespace Lexer

/-! ## the state at a byte -/

/-- The byte that is read as a character. -/
theorem eq_ofChar {b : UInt8} {c : Char} (h : Char.ofUInt8 b = c) : b = Bytes.ofChar c := by
  subst h
  exact UInt8.ofNat_toNat.symm

/-- Where the length of a body is at: outside of quotes, between quotes, or behind a backslash
between quotes; with the number of open brackets. -/
inductive BodyState where
  | plain (depth : Nat)
  | quoted (quote : {b : UInt8 // b = 34 ∨ b = 39}) (depth : Nat)
  | escaped (quote : {b : UInt8 // b = 34 ∨ b = 39}) (depth : Nat)

namespace BodyState

/-- The state behind a byte; none when the body ends before it. -/
def next? : BodyState → UInt8 → Option BodyState
  | .plain d, b =>
    match Char.ofUInt8 b with
    | '{' => if d = 0 then none else some (.plain (d + 1))
    | '(' | '[' => some (.plain (d + 1))
    | ')' | ']' | '}' => if d = 0 then none else some (.plain (d - 1))
    | ',' | '\n' => if d = 0 then none else some (.plain d)
    | '"' => some (.quoted ⟨34, by decide⟩ d)
    | '\'' => some (.quoted ⟨39, by decide⟩ d)
    | _ => some (.plain d)
  | .quoted q d, b =>
      some (if b = q then .plain d else if b = 92 then .escaped q d else .quoted q d)
  | .escaped q d, _ => some (.quoted q d)

/-- The state behind a text, if the body goes on over all of it. -/
def run? (s : BodyState) (bs : Bytes) : Option BodyState := bs.foldlM next? s

/-- How much of a text the body takes. -/
def length : BodyState → Bytes → Nat
  | .plain d, bs => closureBodyLength d bs
  | .quoted q d, bs => quotedLength q bs + closureBodyLength d (bs.drop (quotedLength q bs))
  | .escaped _ _, [] => 0
  | .escaped q d, _ :: bs =>
      1 + (quotedLength q bs + closureBodyLength d (bs.drop (quotedLength q bs)))

@[simp] theorem run?_nil (s : BodyState) : s.run? [] = some s := rfl

theorem run?_cons (s : BodyState) (b : UInt8) (bs : Bytes) :
    s.run? (b :: bs) = (s.next? b).bind (·.run? bs) := by
  simp [run?, List.foldlM_cons]

/-- A run over two pieces is the run over the second from where the first ended. -/
theorem run?_append (s : BodyState) (as bs : Bytes) :
    s.run? (as ++ bs) = (s.run? as).bind (·.run? bs) := by
  simp [run?, List.foldlM_append]

theorem length_nil (s : BodyState) : s.length [] = 0 := by
  cases s <;> simp [length, closureBodyLength, quotedLength]

/-- The body ends before a byte. -/
theorem length_stop {s : BodyState} {b : UInt8} (h : s.next? b = none) (bs : Bytes) :
    s.length (b :: bs) = 0 := by
  cases s with
  | plain d =>
    rw [next?] at h
    rw [length, closureBodyLength.eq_def]
    split at h
    case h_2 | h_3 | h_9 | h_10 | h_11 => cases h
    all_goals
      split at h
      · simp only [*, if_true]
      · cases h
  | quoted q d | escaped q d => cases h

/-- The body takes a byte that does not end it. -/
theorem length_step {s s' : BodyState} {b : UInt8} (h : s.next? b = some s') (bs : Bytes) :
    s.length (b :: bs) = 1 + s'.length bs := by
  cases s with
  | plain d =>
    rw [next?] at h
    rw [length, closureBodyLength.eq_def]
    split at h
    case h_9 | h_10 =>
      rename_i hb
      obtain rfl := Option.some.inj h
      obtain rfl := eq_ofChar hb
      exact Nat.add_assoc ..
    case h_2 | h_3 | h_11 =>
      obtain rfl := Option.some.inj h
      simp only [*, length]
    all_goals
      split at h
      · cases h
      · obtain rfl := Option.some.inj h
        simp only [*, if_false, length]
  | quoted q d =>
    obtain rfl := Option.some.inj h
    rw [length, quotedLength.eq_def]
    dsimp only
    split
    · rfl
    · split
      · cases bs with
        | nil => simp [length, closureBodyLength]
        | cons e rest =>
          have hdrop : (b :: e :: rest).drop (2 + quotedLength q rest) =
              rest.drop (quotedLength q rest) := by
            rw [Nat.add_comm]
            rfl
          rw [hdrop]
          dsimp only [length]
          omega
      · have hdrop : (b :: bs).drop (1 + quotedLength q bs) = bs.drop (quotedLength q bs) := by
          rw [Nat.add_comm]
          rfl
        rw [hdrop]
        exact Nat.add_assoc ..
  | escaped q d =>
    obtain rfl := Option.some.inj h
    rfl

/-- The body takes a text that it goes on over, and then what it takes of what is behind. -/
theorem length_append {s s' : BodyState} {bs : Bytes} (h : s.run? bs = some s') (after : Bytes) :
    s.length (bs ++ after) = bs.length + s'.length after := by
  induction bs generalizing s with
  | nil =>
    obtain rfl := Option.some.inj h
    simp
  | cons b bs ih =>
    rw [run?_cons, Option.bind_eq_some_iff] at h
    obtain ⟨t, ht, h⟩ := h
    rw [List.cons_append, length_step ht, ih h, List.length_cons]
    omega

/-- Only what stands outside of quotes and brackets ends a body. -/
theorem eq_plain_of_next? {s : BodyState} {b : UInt8} (h : s.next? b = none) : s = .plain 0 := by
  cases s with
  | plain d =>
    rw [next?] at h
    split at h
    case h_2 | h_3 | h_9 | h_10 | h_11 => cases h
    all_goals
      split at h
      · rename_i hd
        rw [hd]
      · cases h
  | quoted q d | escaped q d => cases h

/-- A body that ends before the text does is one that closes its quotes and brackets. -/
theorem run?_take {s : BodyState} {bs : Bytes} (h : s.length bs < bs.length) :
    s.run? (bs.take (s.length bs)) = some (.plain 0) := by
  induction bs generalizing s with
  | nil => exact absurd h (Nat.not_lt_zero _)
  | cons b bs ih =>
    cases hnext : s.next? b with
    | none =>
      rw [length_stop hnext, eq_plain_of_next? hnext]
      rfl
    | some s' =>
      rw [length_step hnext, List.length_cons, Nat.add_comm] at h
      rw [length_step hnext, Nat.add_comm, List.take_succ_cons, run?_cons, hnext]
      exact ih (Nat.lt_of_succ_lt_succ h)

/-- The same place within `k` more brackets. -/
def deeper (k : Nat) : BodyState → BodyState
  | .plain d => .plain (d + k)
  | .quoted q d => .quoted q (d + k)
  | .escaped q d => .escaped q (d + k)

/-- A byte that leaves the body open leaves it open within more brackets too. -/
theorem next?_deeper (k : Nat) {s s' : BodyState} {b : UInt8} (h : s.next? b = some s') :
    (s.deeper k).next? b = some (s'.deeper k) := by
  cases s with
  | plain d =>
    rw [deeper, next?]
    rw [next?] at h
    split at h
    case h_2 | h_3 | h_9 | h_10 | h_11 =>
      obtain rfl := Option.some.inj h
      simp [deeper, Nat.add_right_comm, *]
    all_goals
      split at h
      · cases h
      · rename_i hd
        obtain rfl := Option.some.inj h
        have hpos : ¬ d + k = 0 := by omega
        have hsub : d + k - 1 = d - 1 + k := by omega
        simp only [if_false, deeper, Nat.add_right_comm d 1 k, *]
  | quoted q d =>
    obtain rfl := Option.some.inj h
    dsimp only [deeper, next?]
    split
    · rfl
    · split <;> rfl
  | escaped q d =>
    obtain rfl := Option.some.inj h
    rfl

/-- Bytes that leave the body open leave it open within more brackets too. -/
theorem run?_deeper (k : Nat) {s s' : BodyState} {bs : Bytes} (h : s.run? bs = some s') :
    (s.deeper k).run? bs = some (s'.deeper k) := by
  induction bs generalizing s with
  | nil =>
    obtain rfl := Option.some.inj h
    rfl
  | cons b bs ih =>
    rw [run?_cons, Option.bind_eq_some_iff] at h
    obtain ⟨t, ht, h⟩ := h
    rw [run?_cons, next?_deeper k ht]
    exact ih h

/-! ## characters -/

/-- The state behind a character that is no ASCII character. -/
def passed : BodyState → BodyState
  | .escaped q d => .quoted q d
  | s => s

/-- A byte beyond ASCII opens and closes nothing. -/
theorem next?_high {b : UInt8} (hb : ¬ b < 0x80) (s : BodyState) : s.next? b = some s.passed := by
  cases s with
  | plain d =>
    have hne : ∀ c : Char, Bytes.ofChar c < 0x80 → Char.ofUInt8 b ≠ c :=
      fun c hc heq => hb (eq_ofChar heq ▸ hc)
    rw [next?]
    split
    case h_11 => rfl
    all_goals
      rename_i heq
      exact absurd heq (hne _ (by decide))
  | quoted q d =>
    have hquote : b ≠ q := by
      rcases q.2 with hq | hq <;> rw [hq] <;> exact fun heq => hb (heq ▸ by decide)
    have hslash : b ≠ 92 := fun heq => hb (heq ▸ by decide)
    rw [next?, if_neg hquote, if_neg hslash]
    rfl
  | escaped q d => rfl

/-- Bytes beyond ASCII open and close nothing. -/
theorem run?_high {bs : Bytes} (hne : bs ≠ []) (hbs : ∀ b ∈ bs, ¬ b < 0x80) (s : BodyState) :
    s.run? bs = some s.passed := by
  have hpassed : ∀ s : BodyState, s.passed.passed = s.passed := fun s => by cases s <;> rfl
  induction bs generalizing s with
  | nil => exact absurd rfl hne
  | cons b bs ih =>
    obtain ⟨hb, hbs⟩ := List.forall_mem_cons.1 hbs
    rw [run?_cons, next?_high hb, Option.bind_some]
    by_cases hnil : bs = []
    · rw [hnil, run?_nil]
    · rw [ih hnil hbs, hpassed]

/-- A character acts as the one that is shown for it, which a stray byte is not. -/
theorem run?_glyphAt (s : BodyState) (a : UInt8) (rest : Bytes) :
    s.run? (Utf8.glyphAt a rest).bytes =
      s.run? (String.utf8EncodeChar (Utf8.glyphAt a rest).toChar) := by
  rcases Utf8.glyphAt_cases a rest with ⟨ha, hglyph⟩ | ⟨hhigh, hchar⟩
  · have hsame : String.utf8EncodeChar (Char.ofUInt8 a) = [a] := by
      obtain ⟨b, more, hbytes, hback⟩ := Utf8.glyphAt_utf8EncodeChar (Char.ofUInt8 a)
      rcases Utf8.utf8EncodeChar_cases (Char.ofUInt8 a) with ⟨-, hone⟩ | ⟨hge, -⟩ | ⟨hge, -⟩
        | ⟨hge, -⟩
      · exact hone.trans (congrArg (fun b => [b]) (UInt8.ofNat_toNat))
      all_goals
        have hlt : (Char.ofUInt8 a).toNat < 0x80 := ha
        omega
    rw [hglyph]
    exact congrArg s.run? hsame.symm
  · obtain ⟨more, hbytes, -⟩ := Utf8.exists_bytes_glyphAt a rest
    have hnot : ∀ b ∈ String.utf8EncodeChar (Utf8.glyphAt a rest).toChar, ¬ b < 0x80 := by
      intro b hb hlt
      rcases Utf8.utf8EncodeChar_cases (Utf8.glyphAt a rest).toChar with ⟨hlow, -⟩
        | ⟨-, -, x, y, hc, hx, hy⟩ |
        ⟨-, -, x, y, z, hc, hx, hy, hz⟩ | ⟨-, x, y, z, w, hc, hx, hy, hz, hw⟩
      · omega
      all_goals
        have hlt : b.toNat < 0x80 := hlt
        rw [hc] at hb
        simp only [List.mem_cons, List.not_mem_nil, or_false] at hb
        rcases hb with rfl | rfl | rfl | rfl <;> omega
    obtain ⟨x, y, hfirst, -⟩ := Utf8.glyphAt_utf8EncodeChar (Utf8.glyphAt a rest).toChar
    rw [run?_high (by simp [hbytes]) hhigh, run?_high (by simp [hfirst]) hnot]

/-- A blank changes nothing but where a backslash is before it, and may end the body. -/
theorem run?_space {a : UInt8} {rest : Bytes} (h : Text.isSpace (Utf8.glyphAt a rest).toChar = true)
    (s : BodyState) :
    s.run? (Utf8.glyphAt a rest).bytes = none ∨ s.run? (Utf8.glyphAt a rest).bytes =
      some s.passed := by
  rcases Utf8.glyphAt_cases a rest with ⟨ha, hglyph⟩ | ⟨hhigh, -⟩
  · rw [hglyph] at h ⊢
    have hcode : a = 9 ∨ a = 10 ∨ a = 11 ∨ a = 12 ∨ a = 13 ∨ a = 32 := by
      have hlt : a.toNat < 0x80 := ha
      have hn : (Char.ofUInt8 a).toNat = a.toNat := rfl
      simp only [Glyph.toChar, Text.isSpace, hn, Bool.or_eq_true, Bool.and_eq_true,
        decide_eq_true_eq] at h
      simp only [← UInt8.toNat_inj, UInt8.reduceToNat]
      omega
    simp only [Glyph.bytes, run?_cons, run?_nil, Option.bind_fun_some]
    cases s with
    | plain d =>
      rcases hcode with rfl | rfl | rfl | rfl | rfl | rfl
      case inr.inl =>
        change (if d = 0 then none else some (plain d)) = none ∨
          (if d = 0 then none else some (plain d)) = _
        split
        · exact .inl rfl
        · exact .inr rfl
      all_goals exact .inr rfl
    | quoted q d =>
      obtain ⟨q, rfl | rfl⟩ := q
      all_goals rcases hcode with rfl | rfl | rfl | rfl | rfl | rfl <;> exact .inr rfl
    | escaped q d => exact .inr rfl
  · obtain ⟨more, hbytes, -⟩ := Utf8.exists_bytes_glyphAt a rest
    exact .inr (run?_high (by simp [hbytes]) hhigh s)

/-- Only blanks outside of quotes lead to where no quote is open, and they lead nowhere else. -/
theorem run?_spaces {gs : List Glyph} (hglyphs : ∀ g ∈ gs, ∃ a rest, g = Utf8.glyphAt a rest)
    (hspace : ∀ g ∈ gs, Text.isSpace g.toChar = true) {s t : BodyState}
    (h : s.run? (gs.flatMap Glyph.bytes) = some t) :
    s = .plain 0 ↔ t = .plain 0 := by
  induction gs generalizing s with
  | nil =>
    obtain rfl := Option.some.inj h
    rfl
  | cons g gs ih =>
    obtain ⟨⟨a, rest, rfl⟩, hmore⟩ := List.forall_mem_cons.1 hglyphs
    obtain ⟨hg, hspace⟩ := List.forall_mem_cons.1 hspace
    rw [List.flatMap_cons, run?_append] at h
    rcases run?_space hg s with hnone | hpassed
    · rw [hnone] at h
      cases h
    · rw [hpassed] at h
      rw [← ih hmore hspace h]
      cases s <;> simp [passed]

end BodyState

/-! ## bodies -/

/-- A text that opens and closes its quotes and brackets, and ends no body outside of them. -/
def Balanced (bs : Bytes) : Prop := (BodyState.plain 0).run? bs = some (.plain 0)

namespace Balanced

variable {as bs : Bytes}

theorem append (ha : Balanced as) (hb : Balanced bs) : Balanced (as ++ bs) := by
  rw [Balanced, BodyState.run?_append, ha]
  exact hb

/-- It goes on over a balanced text also within brackets. -/
theorem run?_plain (h : Balanced bs) (depth : Nat) :
    (BodyState.plain depth).run? bs = some (.plain depth) := by
  have hdeeper := BodyState.run?_deeper depth h
  rwa [BodyState.deeper, Nat.zero_add] at hdeeper

/-- A body that something ends is balanced. -/
theorem of_length {bs : Bytes} (h : closureBodyLength 0 bs < bs.length) :
    Balanced (bs.take (closureBodyLength 0 bs)) :=
  BodyState.run?_take (s := .plain 0) h

theorem closureBodyLength (h : Balanced bs) (depth : Nat) (after : Bytes) :
    closureBodyLength depth (bs ++ after) = bs.length + closureBodyLength depth after :=
  BodyState.length_append (h.run?_plain depth) after

/-- Replacing stray bytes by the replacement character keeps a body balanced. -/
theorem encode_decode (h : Balanced bs) : Balanced (Utf8.encode (Utf8.decode bs)) := by
  suffices hrun : ∀ (gs : List Glyph) (s : BodyState),
      (∀ g ∈ gs, ∃ a rest, g = Utf8.glyphAt a rest) →
      s.run? (Utf8.encode (gs.map Glyph.toChar)) = s.run? (gs.flatMap Glyph.bytes) by
    have hbs := hrun (Utf8.glyphs bs) (.plain 0) fun g hg => by
      obtain ⟨a, rest, hglyph⟩ := Utf8.exists_glyphAt_of_mem hg
      exact ⟨a, rest, hglyph⟩
    rw [Utf8.flatMap_bytes_glyphs] at hbs
    exact hbs.trans h
  intro gs
  induction gs with
  | nil => exact fun _ _ => rfl
  | cons g gs ih =>
    intro s hgs
    obtain ⟨⟨a, rest, rfl⟩, hmore⟩ := List.forall_mem_cons.1 hgs
    rw [List.map_cons, Utf8.encode_cons, List.flatMap_cons, BodyState.run?_append,
      BodyState.run?_append, BodyState.run?_glyphAt]
    congr 1
    funext t
    exact ih t hmore

/-- A balanced text has a balanced text between its blanks. -/
theorem trimSpaceBytes (h : Balanced bs) : Balanced (Text.trimSpaceBytes bs) := by
  obtain ⟨front, back, heq, hfront, hback⟩ :=
    Text.exists_trimBoth (fun g => Text.isSpace g.toChar) (Utf8.glyphs bs)
  have hread : ∀ g ∈ Utf8.glyphs bs, ∃ a rest, g = Utf8.glyphAt a rest := by
    intro g hg
    obtain ⟨a, rest, hglyph⟩ := Utf8.exists_glyphAt_of_mem hg
    exact ⟨a, rest, hglyph⟩
  have hbytes : bs = front.flatMap Glyph.bytes ++ Text.trimSpaceBytes bs ++
      back.flatMap Glyph.bytes := by
    rw [Text.trimSpaceBytes, ← List.flatMap_append, ← List.flatMap_append, ← heq,
      Utf8.flatMap_bytes_glyphs]
  rw [heq] at hread
  rw [Balanced, hbytes, BodyState.run?_append, BodyState.run?_append, Option.bind_eq_some_iff] at h
  obtain ⟨t, ht, hend⟩ := h
  obtain ⟨s, hs, ht⟩ := Option.bind_eq_some_iff.1 ht
  have hstart := (BodyState.run?_spaces (fun g hg => hread g (by simp [hg])) hfront hs).1 rfl
  have hstop := (BodyState.run?_spaces (fun g hg => hread g (by simp [hg])) hback hend).2 rfl
  rw [hstart, hstop] at ht
  exact ht

end Balanced

/-! ## closures -/

/-- The text of the body of a closure that something ends. -/
structure ClosureSource (source : String) : Prop where
  balanced : Balanced (Bytes.ofString source)
  trimmed : Text.trimSpace source = source
  ne_empty : source ≠ ""

/-- The body of a closure that something ends is balanced and has no blanks around it. -/
theorem closureSource_lexeme {b : UInt8} {bs : Bytes} {l : Lexed} (h : lexeme b bs = .ok l)
    (hkind : l.kind = .closure) (hmore : l.more < bs.length) :
    ClosureSource (Bytes.toString l.lexeme) := by
  have hname : name (b :: bs) ≠ .ok l := by
    intro hname
    unfold name at hname
    dsimp only at hname
    split at hname
    · obtain rfl := Except.ok.inj hname
      cases hkind
    · cases hname
    · obtain rfl := Except.ok.inj hname
      dsimp only [Lexed.verbatim] at hkind
      split at hkind <;> cases hkind
  have hsign : ∀ {c : Char}, TokenKind.ofSign? c ≠ some .closure := by
    intro c hc
    unfold TokenKind.ofSign? at hc
    split at hc <;> cases hc
  unfold lexeme at h
  dsimp only at h
  split at h
  · obtain rfl := Except.ok.inj h
    cases hkind
  split at h
  · obtain rfl := Except.ok.inj h
    cases hkind
  split at h
  · split at h
    · obtain rfl := Except.ok.inj h
      cases hkind
    · cases h
  split at h
  · exact absurd h hname
  split at h
  · split at h
    · rename_i head hhead
      split at h
      · cases h
      · rename_i hne
        obtain rfl := Except.ok.inj h
        have hsize : closureBodyLength 0 (bs.drop head) < (bs.drop head).length := by
          rw [List.length_drop]
          dsimp only at hmore
          omega
        have hbalanced := (Balanced.of_length hsize).trimSpaceBytes
        refine ⟨?_, ?_, ?_⟩
        · rw [Bytes.ofString, Bytes.toString, String.toList_ofList]
          exact hbalanced.encode_decode
        · rw [Text.toString_trimSpaceBytes, Text.trimSpace_trimSpace]
        · intro hempty
          obtain ⟨a, more, hbody⟩ := List.exists_cons_of_ne_nil fun hnil =>
            hne (List.isEmpty_iff.2 hnil)
          have hchars := congrArg String.toList hempty
          rw [hbody, Bytes.toString, String.toList_ofList, Utf8.decode_cons] at hchars
          cases hchars
    · obtain rfl := Except.ok.inj h
      cases hkind
  · split at h
    · rename_i kind hkinds
      obtain rfl := Except.ok.inj h
      exact absurd (hkinds.trans (congrArg some hkind)) hsign
    · cases h

/-- A closure is written with an arrow before its body. -/
theorem lexeme_closure {source : String} (h : ClosureSource source) {blanks after : Bytes}
    (hblanks : blanks = [] ∨ blanks = [32]) (hafter : closureBodyLength 0 after = 0) :
    lexeme 40 (Bytes.ofString ") => " ++ Bytes.ofString source ++ blanks ++ after) =
      .ok ⟨.closure, Bytes.ofString source, 5 + (Bytes.ofString source).length +
        blanks.length⟩ := by
  have hhead : closureHead? (Bytes.ofString ") => " ++ Bytes.ofString source ++ blanks ++ after) =
    some 4 := rfl
  have hblank : Balanced blanks := by rcases hblanks with rfl | rfl <;> rfl
  have hbalanced : Balanced (32 :: Bytes.ofString source ++ blanks) :=
    (show Balanced [32] from rfl).append (h.balanced.append hblank)
  have hsize : closureBodyLength 0 (32 :: Bytes.ofString source ++ blanks ++ after) =
      (32 :: Bytes.ofString source ++ blanks).length := by
    rw [hbalanced.closureBodyLength, hafter, Nat.add_zero]
  have hdrop : (Bytes.ofString ") => " ++ Bytes.ofString source ++ blanks ++ after).drop 4 =
      32 :: Bytes.ofString source ++ blanks ++ after := rfl
  have htrim : Text.trimSpaceBytes (32 :: Bytes.ofString source ++ blanks) =
      Bytes.ofString source := by
    obtain ⟨spaces, hspaces, hbytes⟩ : ∃ cs : List Char, (∀ c ∈ cs, Text.isSpace c = true) ∧
        Utf8.encode cs = blanks := by
      rcases hblanks with rfl | rfl
      · exact ⟨[], by simp, rfl⟩
      · exact ⟨[' '], by simp [Text.isSpace], rfl⟩
    have htext : 32 :: Bytes.ofString source ++ blanks =
        Bytes.ofString (String.ofList ([' '] ++ source.toList ++ spaces)) := by
      rw [Bytes.ofString, Bytes.ofString, String.toList_ofList, Utf8.encode_append,
        Utf8.encode_append, hbytes]
      rfl
    have htrimmed : Text.trimBoth Text.isSpace source.toList = source.toList := by
      have htrim := congrArg String.toList h.trimmed
      rwa [Text.trimSpace, String.toList_ofList] at htrim
    have hne : source.toList ≠ [] := by
      intro hnil
      exact h.ne_empty (String.toList_inj.1 hnil)
    rw [htext, Text.trimSpaceBytes_ofString, Text.trimSpace, String.toList_ofList,
      Text.trimBoth_between (by simp [Text.isSpace]) hspaces hne htrimmed, String.ofList_toList]
  have hbody : (Bytes.ofString source).isEmpty = false := by
    cases hchars : source.toList with
    | nil => exact absurd (String.toList_inj.1 hchars) h.ne_empty
    | cons c cs =>
      obtain ⟨a, more, hbytes, -⟩ := Utf8.glyphAt_utf8EncodeChar c
      rw [Bytes.ofString, hchars, Utf8.encode_cons, hbytes]
      rfl
  unfold lexeme
  rw [hhead]
  dsimp only
  rw [hdrop, hsize, List.take_left, htrim, hbody]
  have hdigit : isDigit (Char.ofUInt8 40) = false ∧ Char.ofUInt8 40 ≠ '.' := by decide
  rw [if_neg (by decide), if_neg (by simp [hdigit]), if_neg (by decide), if_neg (by decide),
    if_pos (by decide)]
  simp only [Bool.false_eq_true, if_false, List.length_append, List.length_cons, Except.ok.injEq,
    Lexed.mk.injEq, true_and]
  omega

end Lexer

end EffectChain
