import EffectChain.Proofs.Program.Places
import EffectChain.Proofs.Token.Tiling

/-!
# EffectChain.Proofs.Token.Separators

Texts with a separator between them.

A newline and a semicolon end every token but a closure and every gap but a line comment.  So a
text with a separator and another text behind it has the tokens of the text, and then those of
what is behind (`Lexer.tokensFrom_separated`), unless it ends in one of the two
(`Lexer.endsOpen`).
-/

namespace EffectChain

/-- A result under a function is the image of one. -/
theorem exists_of_map {ε α β : Type} {f : α → β} {x : Except ε α} {y : β} (h : x.map f = .ok y) :
    ∃ a, x = .ok a ∧ y = f a := by
  cases x with
  | error e => cases h
  | ok a => exact ⟨a, rfl, (Except.ok.inj h).symm⟩

namespace Lexer

/-! ## what runs on -/

/-- The gap that starts with byte `b` is a comment up to the end of its line. -/
def isLineComment (b : UInt8) (bs : Bytes) : Bool := b = 35 || (b = 47 && startsWith (· = '/') bs)

/-- The text ends in the body of a closure, or in a comment up to the end of the line: what comes
behind it belongs to it. -/
def endsOpen : Bytes → Bool
  | [] => false
  | b :: bs =>
    match gap b bs with
    | .error _ => false
    | .ok (some more) => if more < bs.length then endsOpen (bs.drop more) else isLineComment b bs
    | .ok none =>
      match lexeme b bs with
      | .error _ => false
      | .ok l => if l.more < bs.length then endsOpen (bs.drop l.more) else l.kind = .closure
termination_by bs => bs.length
decreasing_by all_goals simp only [List.length_drop, List.length_cons]; omega

/-- A newline or a semicolon. -/
def IsSeparator (c : UInt8) : Prop := c = 10 ∨ c = 59

namespace IsSeparator

variable {c : UInt8}

theorem of_forall {p : UInt8 → Prop} (hnewline : p 10) (hsemicolon : p 59) (h : IsSeparator c) :
    p c := by
  rcases h with rfl | rfl
  · exact hnewline
  · exact hsemicolon

theorem isHex (h : IsSeparator c) : isHex (Char.ofUInt8 c) = false :=
  h.of_forall (p := fun c => Lexer.isHex (Char.ofUInt8 c) = false) rfl rfl

theorem isDigit (h : IsSeparator c) : isDigit (Char.ofUInt8 c) = false :=
  h.of_forall (p := fun c => Lexer.isDigit (Char.ofUInt8 c) = false) rfl rfl

theorem isNamePart (h : IsSeparator c) : isNamePart (Char.ofUInt8 c) = false :=
  h.of_forall (p := fun c => Lexer.isNamePart (Char.ofUInt8 c) = false) rfl rfl

theorem isBlank (h : IsSeparator c) : isBlank c = false :=
  h.of_forall (p := fun c => Lexer.isBlank c = false) rfl rfl

theorem ascii (h : IsSeparator c) : c < 0x80 :=
  h.of_forall (p := fun c => c < 0x80) (by decide) (by decide)

end IsSeparator

variable {c : UInt8} (hc : IsSeparator c) (bs rest : Bytes)

/-! ## runs -/

theorem takeWhile_before {p : UInt8 → Bool} (hp : p c = false) :
    (bs ++ c :: rest).takeWhile p = bs.takeWhile p := by
  induction bs with
  | nil => rw [List.nil_append, List.takeWhile_cons, hp]; rfl
  | cons b bs ih => rw [List.cons_append, List.takeWhile_cons, List.takeWhile_cons, ih]

theorem runLength_before {p : Char → Bool} (hp : p (Char.ofUInt8 c) = false) :
    runLength p (bs ++ c :: rest) =
      runLength p bs := by rw [runLength, takeWhile_before bs rest hp, runLength]

theorem runLength_le (p : Char → Bool) : runLength p bs ≤ bs.length :=
  (List.takeWhile_prefix _).length_le

/-- Whether a text starts with something does not depend on what stands behind a separator. -/
theorem startsWith_before {p : Char → Bool} (hp : p (Char.ofUInt8 c) = false) :
    startsWith p (bs ++ c :: rest) = startsWith p bs := by
  cases bs with
  | nil => exact hp
  | cons b bs => rfl

/-- A run that ends before the end of the text. -/
theorem takeWhile_of_lt {p : UInt8 → Bool} (h : (bs.takeWhile p).length < bs.length) :
    (bs ++ rest).takeWhile p = bs.takeWhile p := by
  induction bs with
  | nil => cases h
  | cons b bs ih =>
    rw [List.cons_append, List.takeWhile_cons, List.takeWhile_cons]
    split
    · rename_i hb
      rw [List.takeWhile_cons, if_pos hb] at h
      rw [ih (Nat.lt_of_succ_lt_succ h)]
    · rfl

/-! ## gaps -/

/-- A closed comment is as long whatever follows it. -/
theorem commentLength_before {n : Nat} (h : commentLength bs = some n) :
    commentLength (bs ++ rest) = some n := by
  induction bs generalizing n with
  | nil => cases h
  | cons b bs ih =>
    rw [List.cons_append]
    unfold commentLength at h ⊢
    split at h
    · rename_i hends
      obtain ⟨x, more, rfl, -⟩ := of_startsWith (Bool.and_eq_true_iff.1 hends).2
      rwa [if_pos (by exact hends)]
    · rename_i hgoes
      obtain ⟨m, hm, rfl⟩ := Option.map_eq_some_iff.1 h
      have hsame : startsWith (· = '/') (bs ++ rest) = startsWith (· = '/') bs := by
        cases bs with
        | nil => cases hm
        | cons x more => rfl
      rw [hsame, if_neg hgoes, ih hm]
      rfl

/-- A comment is no longer than the text. -/
theorem commentLength_le {n : Nat} (h : commentLength bs = some n) : n ≤ bs.length := by
  obtain ⟨body, rest, rfl, rfl, -⟩ := commentLength_spec h
  have hend : (Bytes.ofString "*/").length = 2 := rfl
  simp only [List.length_append, hend]
  omega

include hc in
/-- A color ends before a separator. -/
theorem colorDigits_before : colorDigits (bs ++ c :: rest) = colorDigits bs := by
  unfold colorDigits
  dsimp only
  rw [runLength_before bs rest hc.isHex, List.drop_append_of_le_length (runLength_le bs _),
    startsWith_before _ rest hc.isNamePart]

include hc in
/-- A gap is passed over as before, unless it is a line comment that goes on. -/
theorem gap_before {b : UInt8} {g : Option Nat} (h : gap b bs = .ok g)
    (hopen : ∀ more, g = some more → more < bs.length ∨ isLineComment b bs = false) :
    gap b (bs ++ c :: rest) = .ok g ∧ ∀ more, g = some more → more ≤ bs.length := by
  unfold gap at h ⊢
  split at h
  case h_1 | h_2 | h_3 | h_4 =>
    obtain rfl := Except.ok.inj h
    exact ⟨rfl, fun more hmore => Option.some.inj hmore ▸ Nat.zero_le _⟩
  case h_5 hb =>
    obtain rfl := Except.ok.inj h
    rw [colorDigits_before hc]
    split
    · rename_i hcolor
      have hcomment : isLineComment b bs = true := by
        simp [isLineComment, eq_ofChar hb, Bytes.ofChar]
      rw [if_pos hcolor] at hopen
      have hlt : lineLength bs < bs.length := (hopen _ rfl).resolve_right (by simp [hcomment])
      refine ⟨?_, fun more hmore => Option.some.inj hmore ▸ Nat.le_of_lt hlt⟩
      rw [lineLength, takeWhile_of_lt bs _ hlt, lineLength]
    · exact ⟨rfl, fun more hmore => by cases hmore⟩
  case h_6 hb =>
    split at h
    · rename_i bs
      obtain rfl := Except.ok.inj h
      have hcomment : isLineComment b (47 :: bs) = true := by
        rw [isLineComment, eq_ofChar hb]
        rfl
      have hlt : lineLength (47 :: bs) < (47 :: bs).length :=
        (hopen _ rfl).resolve_right (by simp [hcomment])
      refine ⟨?_, fun more hmore => Option.some.inj hmore ▸ Nat.le_of_lt hlt⟩
      change Except.ok (some (lineLength (47 :: bs ++ c :: rest))) = _
      rw [lineLength, takeWhile_of_lt _ _ hlt, lineLength]
    · rename_i bs
      split at h
      · rename_i n hn
        obtain rfl := Except.ok.inj h
        refine ⟨?_, fun more hmore => ?_⟩
        · simp only [List.cons_append, commentLength_before bs _ hn]
        · obtain rfl := Option.some.inj hmore
          exact Nat.succ_le_succ (commentLength_le bs hn)
      · cases h
    · rename_i hslash hstar
      obtain rfl := Except.ok.inj h
      refine ⟨?_, fun more hmore => by cases hmore⟩
      cases bs with
      | nil => rcases hc with rfl | rfl <;> rfl
      | cons x more =>
        dsimp only [List.cons_append]
        split
        · rename_i heq
          obtain ⟨rfl, -⟩ := List.cons.inj heq
          exact absurd rfl (hslash more)
        · rename_i heq
          obtain ⟨rfl, -⟩ := List.cons.inj heq
          exact absurd rfl (hstar more)
        · rfl
  case h_7 =>
    obtain rfl := Except.ok.inj h
    exact ⟨rfl, fun more hmore => by cases hmore⟩

/-! ## tokens -/

/-- An ASCII byte belongs to no character that began before it. -/
theorem glyphAt_before {c : UInt8} (hc : c < 0x80) (a : UInt8) (bs rest : Bytes) :
    Utf8.glyphAt a (bs ++ c :: rest) = Utf8.glyphAt a bs := by
  have hbelow : ∀ m : UInt8, 0x80 ≤ m → ¬ m ≤ c := fun m hm hle =>
    UInt8.lt_irrefl _ (UInt8.lt_of_le_of_lt (UInt8.le_trans hm hle) hc)
  have hnone : ∀ m n : UInt8, 0x80 ≤ m → (decide (m ≤ c) && decide (c ≤ n)) = false := fun m n hm =>
    Bool.and_eq_false_iff.2 (.inl (decide_eq_false (hbelow m hm)))
  have htail : Utf8.isTail c = false := hnone _ _ (by decide)
  have hsecond : Utf8.secondFits a c = false := by
    unfold Utf8.secondFits
    split
    · exact hnone _ _ (by decide)
    split
    · exact hnone _ _ (by decide)
    split
    · exact hnone _ _ (by decide)
    split
    · exact hnone _ _ (by decide)
    · exact htail
  unfold Utf8.glyphAt
  match bs, rest with
  | [], [] | [], [_] | [], _ :: _ :: _ => simp [htail, hsecond]
  | [x], [] | [x], _ :: _ => simp [htail]
  | [x, y], rest => simp [htail]
  | x :: y :: z :: bs, rest => rfl

include hc in
/-- A closed string is the same whatever follows it. -/
theorem stringBody_before {quote : UInt8} {contents : Bytes} {n : Nat}
    (h : stringBody quote bs = some (contents, n)) :
    stringBody quote (bs ++ c :: rest) = some (contents, n) := by
  fun_induction stringBody quote bs generalizing contents n with
  | case1 => cases h
  | case2 bs =>
    rw [List.cons_append, stringBody.eq_def]
    dsimp only
    rw [if_pos rfl]
    exact h
  | case3 => cases h
  | case4 e es width hquote =>
    rename_i ih
    obtain ⟨⟨s, m⟩, hs, hsm⟩ := Option.map_eq_some_iff.1 h
    obtain ⟨more, hbytes, hprefix⟩ := Utf8.exists_bytes_glyphAt e es
    have hle : width ≤ (e :: es).length := by
      simp only [width, hbytes, List.length_cons]
      exact Nat.succ_le_succ hprefix.length_le
    rw [List.cons_append, List.cons_append, stringBody.eq_def]
    dsimp only
    rw [if_neg hquote, if_pos rfl, glyphAt_before hc.ascii, ← List.cons_append,
      List.drop_append_of_le_length hle, ih hs]
    exact congrArg some hsm
  | case5 b bs hquote hslash ih =>
    obtain ⟨⟨s, m⟩, hs, hsm⟩ := Option.map_eq_some_iff.1 h
    rw [List.cons_append, stringBody.eq_def]
    dsimp only
    rw [if_neg hquote, if_neg hslash, ih hs]
    exact congrArg some hsm

theorem stringBody_le {quote : UInt8} {contents : Bytes} {n : Nat}
    (h : stringBody quote bs = some (contents, n)) :
    n ≤ bs.length := by
  obtain ⟨text, rest, rfl, rfl, -⟩ := stringBody_spec h
  simp

include hc in
/-- A fraction ends before a separator. -/
theorem fractionLength_before : fractionLength (bs ++ c :: rest) = fractionLength bs := by
  match bs with
  | [] => rcases hc with rfl | rfl <;> rfl
  | b :: bs =>
    by_cases hb : b = 46
    · subst hb
      change (if runLength isDigit (bs ++ c :: rest) = 0 then 0 else 1 +
        runLength isDigit (bs ++ c :: rest)) = _
      rw [runLength_before bs rest hc.isDigit]
      rfl
    · have hnone : ∀ bs : Bytes, fractionLength (b :: bs) = 0 := fun bs => by
        unfold fractionLength
        split
        · rename_i heq
          exact absurd (List.cons.inj heq).1 hb
        · rfl
      rw [List.cons_append, hnone, hnone]

/-- A fraction is no longer than the text. -/
theorem fractionLength_le : fractionLength bs ≤ bs.length := by
  unfold fractionLength
  split
  · rename_i bs
    have hle := runLength_le bs isDigit
    dsimp only
    split
    · exact Nat.zero_le _
    · rw [List.length_cons]
      omega
  · exact Nat.zero_le _

include hc in
/-- An exponent ends before a separator. -/
theorem exponentLength_before : exponentLength (bs ++ c :: rest) = exponentLength bs := by
  have hsign : ((Char.ofUInt8 c) = '+' || (Char.ofUInt8 c) = '-') = false := by
    rcases hc with rfl | rfl <;> rfl
  match bs with
  | [] => rcases hc with rfl | rfl <;> rfl
  | e :: bs =>
    have hle : (if startsWith (fun c => c = '+' || c = '-') bs then 1 else 0) ≤ bs.length := by
      split
      · rename_i hstart
        obtain ⟨x, more, rfl, -⟩ := of_startsWith hstart
        simp
      · exact Nat.zero_le _
    rw [List.cons_append, exponentLength, exponentLength,
      startsWith_before bs rest (p := fun c => c = '+' || c = '-') hsign]
    dsimp only
    rw [List.drop_append_of_le_length hle, runLength_before _ rest hc.isDigit]

/-- An exponent is no longer than the text. -/
theorem exponentLength_le : exponentLength bs ≤ bs.length := by
  unfold exponentLength
  split
  · exact Nat.zero_le _
  · rename_i e bs
    split
    · dsimp only
      have hsign : (if startsWith (fun c => c = '+' || c = '-') bs then 1 else 0) ≤ bs.length := by
        split
        · rename_i hstart
          obtain ⟨x, more, rfl, -⟩ := of_startsWith hstart
          simp
        · exact Nat.zero_le _
      have hdigits :=
        runLength_le (bs.drop (if startsWith (fun c => c = '+' || c = '-') bs then 1 else 0))
          isDigit
      rw [List.length_drop] at hdigits
      generalize (if startsWith (fun c => c = '+' || c = '-') bs then 1 else 0) = sign
        at hsign hdigits ⊢
      rw [List.length_cons]
      split <;> omega
    · exact Nat.zero_le _

/-- A number is no longer than the text. -/
theorem numberLength_le : numberLength bs ≤ bs.length := by
  have hwhole := runLength_le bs isDigit
  have hfraction := fractionLength_le (bs.drop (runLength isDigit bs))
  have hexponent :=
    exponentLength_le
      (bs.drop (runLength isDigit bs + fractionLength (bs.drop (runLength isDigit bs))))
  rw [List.length_drop] at hfraction hexponent
  unfold numberLength
  dsimp only
  omega

include hc in
/-- A number ends before a separator. -/
theorem numberLength_before : numberLength (bs ++ c :: rest) = numberLength bs := by
  have hwhole := runLength_le bs isDigit
  have hfraction := fractionLength_le (bs.drop (runLength isDigit bs))
  rw [List.length_drop] at hfraction
  unfold numberLength
  dsimp only
  rw [runLength_before bs rest hc.isDigit, List.drop_append_of_le_length hwhole,
    fractionLength_before hc, List.drop_append_of_le_length (by omega), exponentLength_before hc]

/-! ### closures -/

/-- A closed quotation inside a closure is as long whatever follows it. -/
theorem quotedLength_before {quote : UInt8} (h : quotedLength quote bs < bs.length) :
    quotedLength quote (bs ++ rest) = quotedLength quote bs := by
  fun_induction quotedLength quote bs with
  | case1 => cases h
  | case2 bs =>
    rw [List.cons_append, quotedLength.eq_def]
    dsimp only
    rw [if_pos rfl]
  | case3 => exact absurd h (Nat.lt_irrefl _)
  | case4 x bs hquote ih =>
    rw [List.cons_append, List.cons_append, quotedLength.eq_def]
    dsimp only
    rw [if_neg hquote, if_pos rfl, ih (by simp only [List.length_cons] at h; omega)]
  | case5 b bs hquote hslash ih =>
    rw [List.cons_append, quotedLength.eq_def]
    dsimp only
    rw [if_neg hquote, if_neg hslash, ih (by simp only [List.length_cons] at h; omega)]

theorem quotedLength_le (quote : UInt8) : quotedLength quote bs ≤ bs.length := by
  fun_induction quotedLength quote bs <;> simp only [List.length_cons, List.length_nil] <;> omega

/-- A closure's body that ends before the text does. -/
theorem closureBodyLength_before {depth : Nat} (h : closureBodyLength depth bs < bs.length) :
    closureBodyLength depth (bs ++ rest) = closureBodyLength depth bs := by
  fun_induction closureBodyLength depth bs with
  | case1 => cases h
  | case2 b bs hb | case6 b bs hb | case8 b bs hb | case10 b bs hb | case12 b bs hb
      | case14 b bs hb =>
    rw [List.cons_append, closureBodyLength.eq_def]
    simp [hb]
  | case3 depth b bs hb hdepth ih | case7 depth b bs hb hdepth ih | case9 depth b bs hb hdepth ih
  | case11 depth b bs hb hdepth ih | case13 depth b bs hb hdepth ih
      | case15 depth b bs hb hdepth ih =>
    rw [List.cons_append, closureBodyLength.eq_def]
    simp only [hb, if_neg hdepth, ih (by simp only [List.length_cons] at h; omega)]
  | case4 depth b bs hb ih | case5 depth b bs hb ih =>
    rw [List.cons_append, closureBodyLength.eq_def]
    simp only [hb, ih (by simp only [List.length_cons] at h; omega)]
  | case16 depth b bs hb n ih | case17 depth b bs hb n ih =>
    have hlt : n < bs.length := by
      have hle := quotedLength_le bs b
      simp only [List.length_cons] at h
      omega
    have hdrop : closureBodyLength depth (bs.drop n) < (bs.drop n).length := by
      rw [List.length_drop]
      simp only [List.length_cons] at h
      omega
    rw [List.cons_append, closureBodyLength.eq_def]
    simp only [hb, quotedLength_before bs rest hlt]
    rw [List.drop_append_of_le_length (Nat.le_of_lt hlt), ih hdrop]
  | case18 depth b bs =>
    rename_i ih
    rw [List.cons_append, closureBodyLength.eq_def]
    dsimp only
    split
    case h_11 => rw [ih (by simp only [List.length_cons] at h; omega)]
    all_goals contradiction

include hc in
/-- The head of a closure ends before a separator. -/
theorem closureHead?_before : closureHead? (bs ++ c :: rest) = closureHead? bs := by
  have hle : ∀ bs : Bytes, (bs.takeWhile isBlank).length ≤ bs.length := fun bs =>
    (List.takeWhile_prefix _).length_le
  unfold closureHead?
  dsimp only
  rw [takeWhile_before bs rest hc.isBlank, List.drop_append_of_le_length (hle bs)]
  cases bs.drop (bs.takeWhile isBlank).length with
  | nil => rcases hc with rfl | rfl <;> rfl
  | cons x inner =>
    by_cases hx : x = 41
    · subst hx
      rw [List.cons_append]
      split
      swap
      · rename_i hnone
        exact absurd rfl (hnone (inner ++ c :: rest))
      rename_i after heq
      obtain rfl := (List.cons.inj heq).2
      rw [takeWhile_before inner rest hc.isBlank, List.drop_append_of_le_length (hle inner)]
      match inner.drop (inner.takeWhile isBlank).length with
      | [] | [_] => rcases hc with rfl | rfl <;> simp
      | y :: z :: after =>
        -- the arrow is told by its two signs
        rw [List.cons_append, List.cons_append]
        by_cases harrow : y = 61 ∧ z = 62
        · obtain ⟨rfl, rfl⟩ := harrow
          rfl
        · split <;> split <;> simp_all
    · rw [List.cons_append]
      split
      · rename_i heq
        exact absurd (List.cons.inj heq).1 hx
      · split
        · rename_i heq
          exact absurd (List.cons.inj heq).1 hx
        · rfl

/-- The head of a closure is no longer than the text. -/
theorem closureHead?_le {n : Nat} (h : closureHead? bs = some n) : n ≤ bs.length := by
  unfold closureHead? at h
  dsimp only at h
  split at h
  · rename_i inner hparen
    split at h
    · rename_i arrow
      obtain rfl := Option.some.inj h
      have hlength := congrArg List.length hparen
      have hlength' := congrArg List.length arrow
      rw [List.length_drop, List.length_cons] at hlength
      rw [List.length_drop, List.length_cons, List.length_cons] at hlength'
      omega
    · cases h
  · cases h

/-! ### all tokens -/

include hc in
/-- A name ends before a separator. -/
theorem name_before {l : Lexed} (h : name bs = .ok l) : name (bs ++ c :: rest) = .ok l := by
  have htake : (bs ++ c :: rest).take (runLength isNamePart bs) =
      bs.take (runLength isNamePart bs) :=
    List.take_append_of_le_length (runLength_le bs _)
  have hverbatim : ∀ kind, Lexed.verbatim kind (bs ++ c :: rest) (runLength isNamePart bs) =
      .verbatim kind bs (runLength isNamePart bs) :=
        fun kind => by rw [Lexed.verbatim, htake, Lexed.verbatim]
  unfold name at h ⊢
  dsimp only at h ⊢
  rw [runLength_before bs rest hc.isNamePart, htake, hverbatim, hverbatim]
  exact h

/-- A name is no longer than the text. -/
theorem name_le {b : UInt8} {l : Lexed} (h : name (b :: bs) = .ok l) : l.more ≤ bs.length := by
  have hle : ∀ kind, (Lexed.verbatim kind (b :: bs) (runLength isNamePart (b :: bs))).more ≤
      bs.length := fun kind => by
    have hrun := runLength_le (b :: bs) isNamePart
    rw [List.length_cons] at hrun
    exact Nat.sub_le_of_le_add hrun
  unfold name at h
  dsimp only at h
  split at h
  · exact Except.ok.inj h ▸ hle _
  · cases h
  · exact Except.ok.inj h ▸ hle _

include hc in
/-- A token is read as before, unless it is a closure that goes on. -/
theorem lexeme_before {b : UInt8} {l : Lexed} (h : lexeme b bs = .ok l)
    (hopen : l.kind = .closure → l.more < bs.length) :
    lexeme b (bs ++ c :: rest) = .ok l ∧ l.more ≤ bs.length := by
  have hverbatim : ∀ kind size, size ≤ bs.length + 1 →
      Lexed.verbatim kind (b :: (bs ++ c :: rest)) size = .verbatim kind (b :: bs) size ∧
        (Lexed.verbatim kind (b :: bs) size).more ≤ bs.length := fun kind size hsize => by
    rw [Lexed.verbatim, ← List.cons_append, List.take_append_of_le_length (by simpa using hsize),
      Lexed.verbatim]
    exact ⟨rfl, Nat.sub_le_of_le_add hsize⟩
  unfold lexeme at h ⊢
  dsimp only at h ⊢
  rw [colorDigits_before hc, startsWith_before bs rest hc.isDigit]
  split at h
  · rename_i hsign
    obtain rfl := Except.ok.inj h
    have hsize : colorDigits bs ≤ bs.length := by
      have hrun := runLength_le bs isHex
      unfold colorDigits
      dsimp only
      split
      · exact hrun
      · exact Nat.zero_le _
    obtain ⟨hsame, hle⟩ := hverbatim .color (1 + colorDigits bs) (by omega)
    rw [if_pos hsign, hsame]
    exact ⟨rfl, hle⟩
  rename_i hsign
  rw [if_neg hsign]
  split at h
  · rename_i hnumber
    obtain rfl := Except.ok.inj h
    obtain ⟨hsame, hle⟩ := hverbatim .number (numberLength (b :: bs)) (numberLength_le (b :: bs))
    rw [if_pos hnumber, ← List.cons_append, numberLength_before hc, List.cons_append, hsame]
    exact ⟨rfl, hle⟩
  rename_i hnumber
  rw [if_neg hnumber]
  split at h
  · rename_i hquote
    rw [if_pos hquote]
    split at h
    · rename_i contents n hbody
      obtain rfl := Except.ok.inj h
      rw [stringBody_before hc bs rest hbody]
      exact ⟨rfl, stringBody_le bs hbody⟩
    · cases h
  rename_i hquote
  rw [if_neg hquote]
  split at h
  · rename_i hname
    rw [if_pos hname, ← List.cons_append]
    exact ⟨name_before hc (b :: bs) rest h, name_le bs h⟩
  rename_i hname
  rw [if_neg hname]
  split at h
  · rename_i hparen
    rw [if_pos hparen, closureHead?_before hc]
    split at h
    · rename_i head hhead
      have hheadle := closureHead?_le bs hhead
      split at h
      · cases h
      · rename_i hbody
        obtain rfl := Except.ok.inj h
        have hlt : head + closureBodyLength 0 (bs.drop head) < bs.length := hopen rfl
        have hinner : closureBodyLength 0 (bs.drop head) < (bs.drop head).length := by
          rw [List.length_drop]
          omega
        dsimp only
        rw [List.drop_append_of_le_length hheadle, closureBodyLength_before _ _ hinner,
          List.take_append_of_le_length (Nat.le_of_lt hinner), if_neg hbody]
        exact ⟨rfl, Nat.le_of_lt hlt⟩
    · obtain rfl := Except.ok.inj h
      exact ⟨rfl, Nat.zero_le _⟩
  rename_i hparen
  rw [if_neg hparen]
  split at h
  · obtain rfl := Except.ok.inj h
    exact ⟨rfl, Nat.zero_le _⟩
  · cases h

/-! ### the whole text -/

section

variable {cur : Cursor} {b : UInt8} {more : Bytes}

/-- At the end of the text there is the end token. -/
theorem tokensFrom_nil (h : cur.rest = []) : tokensFrom cur = .ok [⟨.endOfInput, [], cur.pos⟩] := by
  rw [tokensFrom]
  split
  · rfl
  · simp_all

/-- A gap is passed without a token. -/
theorem tokensFrom_gap {n : Nat} (h : cur.rest = b :: more) (hgap : gap b more = .ok (some n)) :
    tokensFrom cur = tokensFrom (cur.advance (n + 1)) := by
  rw [tokensFrom]
  split
  · simp_all
  · rename_i heq
    obtain ⟨rfl, rfl⟩ := List.cons.inj (heq.symm.trans h)
    rw [hgap]

/-- A lexeme is a token, followed by those behind it. -/
theorem tokensFrom_lexeme {l : Lexed} (h : cur.rest = b :: more) (hgap : gap b more = .ok none)
    (hl : lexeme b more = .ok l) :
    tokensFrom cur = (tokensFrom (cur.advance (l.more + 1))).map
      (⟨l.kind, l.lexeme, cur.pos⟩ :: ·) := by
  rw [tokensFrom]
  split
  · simp_all
  · rename_i heq
    obtain ⟨rfl, rfl⟩ := List.cons.inj (heq.symm.trans h)
    rw [hgap, hl]

end

/-- The tokens of a text are the same wherever the text stands, but for their places. -/
theorem tokensFrom_elsewhere {cur : Cursor} {ts : List Token} (h : tokensFrom cur = .ok ts)
    (pos : Pos) :
    ∃ (init : List Token) (last : Token) (init' : List Token) (last' : Token),
      ts = init ++ [last] ∧ tokensFrom ⟨pos, cur.rest⟩ = .ok (init' ++ [last']) ∧
      init.Forall₂ Token.Alike init' ∧ last.IsLast ∧ last'.IsLast := by
  fun_induction tokensFrom cur generalizing pos ts with
  | case1 cur hnil =>
    obtain rfl := Except.ok.inj h
    exact ⟨[], _, [], _, rfl, tokensFrom_nil hnil, .nil, ⟨rfl, rfl⟩, ⟨rfl, rfl⟩⟩
  | case2 | case4 => cases h
  | case3 cur b bs hcons more hgap ih =>
    rw [@tokensFrom_gap ⟨pos, cur.rest⟩ b bs more hcons hgap]
    exact ih h _
  | case5 cur b bs hcons hgap l hl ih =>
    obtain ⟨more, hmore, rfl⟩ := exists_of_map h
    obtain ⟨init, last, init', last', rfl, hread, halike, hlast, hlast'⟩ :=
      ih hmore (pos.past (cur.rest.take (l.more + 1)))
    refine ⟨_ :: init, last, ⟨l.kind, l.lexeme, pos⟩ :: init', last', rfl, ?_,
      .cons ⟨rfl, rfl, ?_⟩ halike, hlast, hlast'⟩
    · rw [@tokensFrom_lexeme ⟨pos, cur.rest⟩ b bs l hcons hgap hl]
      exact congrArg (Except.map _) hread
    · exact (lexeme_spec hl).2.ne_endOfInput (List.cons_ne_nil _ _)

include hc in
/-- A text with a separator and more behind it has the tokens of the text, and then those of what is
behind. -/
theorem tokensFrom_separated {cur : Cursor} {ts : List Token} (h : tokensFrom cur = .ok ts)
    (hopen : endsOpen cur.rest = false) :
    ∃ (init : List Token) (last : Token),
      ts = init ++ [last] ∧ last.IsLast ∧ (∀ t ∈ init, t.kind ≠ .endOfInput) ∧
      tokensFrom ⟨cur.pos, cur.rest ++ c :: rest⟩ = (tokensFrom ⟨last.pos, c :: rest⟩).map
        (init ++ ·) := by
  have hadvance : ∀ (cur : Cursor) {b : UInt8} {bs : Bytes} {n : Nat}, cur.rest = b :: bs →
      n ≤ bs.length →
      (⟨cur.pos, cur.rest ++ c :: rest⟩ : Cursor).advance (n + 1) =
        ⟨(cur.advance (n + 1)).pos, (cur.advance (n + 1)).rest ++ c :: rest⟩ := by
    intro cur b bs n hcons hle
    have hle : n + 1 ≤ cur.rest.length := by rw [hcons]; exact Nat.succ_le_succ hle
    rw [Cursor.advance, Cursor.advance, List.take_append_of_le_length hle,
      List.drop_append_of_le_length hle]
  have hbehind : ∀ {cur : Cursor} {b : UInt8} {bs : Bytes} {n : Nat}, cur.rest = b :: bs →
      n ≤ bs.length →
      (n < bs.length → endsOpen (bs.drop n) = false) → endsOpen (cur.advance (n + 1)).rest =
          false := by
    intro cur b bs n hcons hle hlater
    have hrest : (cur.advance (n + 1)).rest = bs.drop n := by
      rw [Cursor.advance, hcons, List.drop_succ_cons]
    rw [hrest]
    obtain hlt | rfl := Nat.lt_or_eq_of_le hle
    · exact hlater hlt
    · rw [List.drop_length, endsOpen]
  fun_induction tokensFrom cur generalizing ts with
  | case1 cur hnil =>
    obtain rfl := Except.ok.inj h
    refine ⟨[], _, rfl, ⟨rfl, rfl⟩, by simp, ?_⟩
    rw [hnil, List.nil_append]
    cases tokensFrom ⟨cur.pos, c :: rest⟩ <;> rfl
  | case2 | case4 => cases h
  | case3 cur b bs hcons more hgap ih =>
    rw [hcons, endsOpen, hgap] at hopen
    dsimp only at hopen
    obtain ⟨hgap', hle⟩ := gap_before hc bs rest hgap fun n hn => by
      obtain rfl := Option.some.inj hn
      by_cases hlt : more < bs.length
      · exact .inl hlt
      · exact .inr (by rwa [if_neg hlt] at hopen)
    have hle := hle more rfl
    have hread := @tokensFrom_gap ⟨cur.pos, cur.rest ++ c :: rest⟩ b (bs ++ c :: rest) more
      (by rw [hcons, List.cons_append]) hgap'
    rw [hread, hadvance cur hcons hle]
    exact ih h (hbehind hcons hle fun hlt => by rwa [if_pos hlt] at hopen)
  | case5 cur b bs hcons hgap l hl ih =>
    obtain ⟨more, hmore, rfl⟩ := exists_of_map h
    rw [hcons, endsOpen, hgap] at hopen
    dsimp only at hopen
    rw [hl] at hopen
    dsimp only at hopen
    obtain ⟨hgap', -⟩ := gap_before hc bs rest hgap (by simp)
    obtain ⟨hl', hle⟩ := lexeme_before hc bs rest hl fun hclosure => by
      by_contra hge
      rw [if_neg hge, hclosure] at hopen
      cases hopen
    have hread := @tokensFrom_lexeme ⟨cur.pos, cur.rest ++ c :: rest⟩ b (bs ++ c :: rest) l
      (by rw [hcons, List.cons_append])
      hgap' hl'
    obtain ⟨init, last, rfl, hlast, hinside, htokens⟩ :=
      ih hmore (hbehind hcons hle fun hlt => by rwa [if_pos hlt] at hopen)
    refine ⟨_ :: init, last, rfl, hlast, List.forall_mem_cons.2 ⟨?_, hinside⟩, ?_⟩
    · exact (lexeme_spec hl).2.ne_endOfInput (List.cons_ne_nil _ _)
    · rw [hread, hadvance cur hcons hle, htokens]
      cases tokensFrom ⟨last.pos, c :: rest⟩ <;> rfl

/-- A newline is passed over. -/
theorem tokensFrom_newline (pos : Pos) :
    tokensFrom ⟨pos, 10 :: rest⟩ = tokensFrom ⟨pos.past [10], rest⟩ :=
  @tokensFrom_gap ⟨pos, 10 :: rest⟩ 10 rest 0 rfl rfl

/-- A semicolon is a token. -/
theorem tokensFrom_semicolon (pos : Pos) :
    tokensFrom ⟨pos, 59 :: rest⟩ = (tokensFrom ⟨pos.past [59], rest⟩).map
      (⟨.semicolon, [59], pos⟩ :: ·) :=
  @tokensFrom_lexeme ⟨pos, 59 :: rest⟩ 59 rest ⟨.semicolon, [59], 0⟩ rfl rfl rfl

end Lexer

end EffectChain
