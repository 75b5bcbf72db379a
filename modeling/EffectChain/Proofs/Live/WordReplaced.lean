import EffectChain.Proofs.Live.WordRange
import Mathlib.Data.List.DropRight

/-!
# EffectChain.Proofs.Live.WordReplaced

The word around the cursor, and the word that a completion takes the place of.

A text is made of words and of the characters that end them.  Around every place in it is one word
(`Text.Word.around_wordAround`, `Text.Word.Around.eq`), and as bytes it is the one around every
offset in it (`Text.Word.wordAt_eq`).  The prompt looks for the word at the offset that is the
cursor's number of characters, and so it finds a word of the text, but not always the one around the
cursor (`Text.Word.exists_of_offset`).

A completion that the field has room for takes the place of the word that was found, and
further steps take the place of that completion (`Prompt.Completed.steps`).

* `word_replaced_iff` — which word any steps replace, what stands around it afterwards, and
  where the cursor is.
-/

namespace EffectChain

namespace Utf8

/-- A character is ASCII if and only if it is one byte. -/
theorem length_utf8EncodeChar_eq_one {c : Char} :
    (String.utf8EncodeChar c).length = 1 ↔ c.toNat < 0x80 := by
  rcases utf8EncodeChar_cases c with ⟨h, hc⟩ | ⟨h, -, a, b, hc, -⟩ | ⟨h, -, a, b, d, hc, -⟩
    | ⟨h, a, b, d, e, hc, -⟩
  · simp [hc, h]
  all_goals
    simp only [hc, List.length_cons, List.length_nil]
    omega

theorem encode_singleton (c : Char) : encode [c] = String.utf8EncodeChar c := List.append_nil _

/-- The bytes of a text are as many as its characters if and only if all of it is ASCII. -/
theorem length_encode_eq_iff (cs : List Char) :
    (encode cs).length = cs.length ↔ ∀ c ∈ cs, c.toNat < 0x80 := by
  induction cs with
  | nil => simp [encode]
  | cons c cs ih =>
    have hpos : 0 < (String.utf8EncodeChar c).length :=
      List.length_pos_iff.2 String.utf8EncodeChar_ne_nil
    have hrest := length_le_length_encode cs
    rw [List.forall_mem_cons, ← ih, ← length_utf8EncodeChar_eq_one, encode_cons, List.length_append,
      List.length_cons]
    omega

/-- A prefix is encoded in no more bytes. -/
theorem length_encode_le_of_isPrefix {cs ds : List Char} (h : cs <+: ds) :
    (encode cs).length ≤ (encode ds).length := by
  obtain ⟨more, rfl⟩ := h
  rw [encode_append, List.length_append]
  exact Nat.le_add_right ..

/-- The characters before an offset; the offset is at their end, or inside the next one. -/
theorem exists_split_at {cs : List Char} {offset : Nat} (h : offset ≤ (encode cs).length) :
    ∃ pre post, cs = pre ++ post ∧ (encode pre).length ≤ offset ∧
      (offset = (encode pre).length ∨ ∃ c ∈ post.head?, 0x80 ≤ c.toNat ∧
        offset ≤ (encode (pre ++ [c])).length) := by
  induction cs generalizing offset with
  | nil => exact ⟨[], [], rfl, Nat.zero_le offset, .inl (Nat.le_zero.1 h)⟩
  | cons c cs ih =>
    rw [encode_cons, List.length_append] at h
    rcases Nat.lt_or_ge offset (String.utf8EncodeChar c).length with hin | hout
    · refine ⟨[], c :: cs, rfl, Nat.zero_le offset, ?_⟩
      by_cases hzero : offset = 0
      · exact .inl hzero
      · refine .inr ⟨c, rfl, ?_, ?_⟩
        · by_contra hascii
          have hone := length_utf8EncodeChar_eq_one.2 (Nat.lt_of_not_le hascii)
          omega
        · rw [List.nil_append, encode_cons, List.length_append]
          omega
    · have hrest : offset - (String.utf8EncodeChar c).length ≤ (encode cs).length := by omega
      obtain ⟨pre, post, rfl, hle, hend⟩ := ih hrest
      refine ⟨c :: pre, post, rfl, ?_, ?_⟩
      · rw [encode_cons, List.length_append]
        omega
      · rw [encode_cons, List.length_append]
        rcases hend with heq | ⟨d, hd, hwide, hwithin⟩
        · exact .inl (by omega)
        · refine .inr ⟨d, hd, hwide, ?_⟩
          rw [List.cons_append, encode_cons, List.length_append]
          omega

end Utf8

/-! ## the word around an offset -/

/-- A run of bytes between two ends is the word around every offset in it. -/
theorem Span.wordAt_append {before word after : Bytes} {offset : Nat}
    (hrun : ∀ b ∈ word, isWordEnd b = false) (hopened : ∀ b ∈ before.getLast?, isWordEnd b = true)
    (hclosed : ∀ b ∈ after.head?, isWordEnd b = true) (hlow : before.length ≤ offset)
    (hhigh : offset ≤ before.length + word.length) :
    Span.wordAt (before ++ word ++ after) offset =
      ⟨before.length, before.length + word.length⟩ := by
  obtain ⟨k, rfl⟩ := Nat.exists_eq_add_of_le hlow
  have hk : k ≤ word.length := by omega
  have hhead : (before ++ word ++ after).take (before.length + k) = before ++ word.take k := by
    rw [List.append_assoc, List.take_length_add_append, List.take_append_of_le_length hk]
  have htail : (before ++ word ++ after).drop (before.length + k) = word.drop k ++ after := by
    rw [List.append_assoc, List.drop_length_add_append, List.drop_append_of_le_length hk]
  have hbefore : (before.reverse.takeWhile fun b => !isWordEnd b) = [] := by
    cases hlast : before.reverse with
    | nil => rfl
    | cons b rest =>
      have hb := hopened b (by rw [List.getLast?_eq_head?_reverse, hlast]; rfl)
      rw [List.takeWhile_cons_of_neg (by simp [hb])]
  have hafter : (after.takeWhile fun b => !isWordEnd b) = [] := by
    cases after with
    | nil => rfl
    | cons b rest => rw [List.takeWhile_cons_of_neg (by simp [hclosed b rfl])]
  have hoffset : min (before.length + k) (before ++ word ++ after).length = before.length + k := by
    rw [List.length_append, List.length_append]
    omega
  simp only [Span.wordAt]
  rw [hoffset, hhead, htail, List.reverse_append,
    List.takeWhile_append_of_pos fun b hb =>
      by simp [hrun b (List.mem_of_mem_take (List.mem_reverse.1 hb))],
    List.takeWhile_append_of_pos fun b hb => by simp [hrun b (List.mem_of_mem_drop hb)],
      hbefore, hafter]
  simp only [List.append_nil, List.length_reverse, List.length_take, List.length_drop,
    Span.mk.injEq]
  omega

namespace Text

/-- The characters that end a word.  All of them are ASCII, so that each is one byte. -/
def endsWord (c : Char) : Bool := c.toNat < 0x80 && isWordEnd (Bytes.ofChar c)

theorem lt_of_endsWord {c : Char} (h : endsWord c = true) : c.toNat < 0x80 :=
  of_decide_eq_true (Bool.and_eq_true_iff.1 h).1

/-- A character ends a word if and only if one of its bytes does, and then they all do. -/
theorem isWordEnd_of_mem {c : Char} {b : UInt8} (h : b ∈ String.utf8EncodeChar c) :
    isWordEnd b = endsWord c := by
  rw [endsWord]
  rcases Utf8.utf8EncodeChar_cases c with ⟨hascii, hc⟩ | hwide
  · rw [hc, List.mem_singleton] at h
    rw [decide_eq_true hascii, Bool.true_and, h]
    rfl
  · have hnot : ¬ c.toNat < 0x80 := by
      rcases hwide with ⟨hlow, -⟩ | ⟨hlow, -⟩ | ⟨hlow, -⟩ <;> omega
    rw [decide_eq_false hnot, Bool.false_and]
    by_contra hend
    -- an end is a whole character, and ASCII
    have hsingle := Utf8.utf8EncodeChar_of_ascii (lt_of_isWordEnd (by simpa using hend)) h
    exact hnot (Utf8.length_utf8EncodeChar_eq_one.1 (by rw [hsingle]; rfl))

/-- A word of a text, as long as it can be, with what stands before it and behind it. -/
@[ext]
structure Word (cs : List Char) where
  before : List Char
  word : List Char
  after : List Char
  chars : cs = before ++ word ++ after
  run : ∀ c ∈ word, endsWord c = false
  opened : ∀ c ∈ before.getLast?, endsWord c = true
  closed : ∀ c ∈ after.head?, endsWord c = true

namespace Word

variable {cs : List Char}

/-- The word is around a place: some of it is before the place, and the rest behind. -/
def Around (w : Word cs) (i : Nat) : Prop :=
  w.before.length ≤ i ∧ i ≤ w.before.length + w.word.length

/-- The bytes of the word. -/
def span (w : Word cs) : Span :=
  ⟨(Utf8.encode w.before).length, (Utf8.encode w.before).length + (Utf8.encode w.word).length⟩

/-- A text with a name in place of the word. -/
def put (w : Word cs) (name : String) : List Char := w.before ++ name.toList ++ w.after

end Word

/-- The longest run of characters around a place none of which ends a word. -/
def wordAround (cs : List Char) (i : Nat) : Word cs where
  before := (cs.take i).rdropWhile fun c => !endsWord c
  word := ((cs.take i).rtakeWhile fun c => !endsWord c) ++ (cs.drop i).takeWhile fun c =>
    !endsWord c
  after := (cs.drop i).dropWhile fun c => !endsWord c
  chars := by
    rw [← List.append_assoc, List.rdropWhile_append_rtakeWhile, List.append_assoc,
      List.takeWhile_append_dropWhile, List.take_append_drop]
  run c hc := by
    rcases List.mem_append.1 hc with hc | hc
    · simpa using List.mem_rtakeWhile_imp hc
    · simpa using List.mem_takeWhile_imp hc
  opened c hc := by
    obtain ⟨hne, rfl⟩ := List.mem_getLast?_eq_getLast hc
    simpa using List.rdropWhile_last_not (fun c => !endsWord c) (cs.take i) hne
  closed c hc := by
    have hhead := List.head?_dropWhile_not (fun c => !endsWord c) (cs.drop i)
    rw [hc] at hhead
    simpa using hhead

namespace Word

variable {cs : List Char} {w w' : Word cs} {i : Nat}

/-! ### words of a text -/

/-- The word around a place is around it. -/
theorem around_wordAround (h : i ≤ cs.length) : (wordAround cs i).Around i := by
  have hsplit :=
    congrArg List.length
      (List.rdropWhile_append_rtakeWhile (p := fun c => !endsWord c) (l := cs.take i))
  rw [List.length_append, List.length_take, Nat.min_eq_left h] at hsplit
  simp only [Around, wordAround, List.length_append]
  omega

theorem take_start (w : Word cs) : cs.take w.before.length = w.before :=
  (congrArg (List.take w.before.length) w.chars).trans (by rw [List.append_assoc, List.take_left])

theorem take_stop (w : Word cs) : cs.take (w.before.length + w.word.length) = w.before ++ w.word :=
  (congrArg (List.take _) w.chars).trans (by rw [← List.length_append, List.take_left])

theorem drop_start (w : Word cs) : cs.drop w.before.length = w.word ++ w.after :=
  (congrArg (List.drop w.before.length) w.chars).trans (by rw [List.append_assoc, List.drop_left])

theorem drop_stop (w : Word cs) : cs.drop (w.before.length + w.word.length) = w.after :=
  (congrArg (List.drop _) w.chars).trans (by rw [← List.length_append, List.drop_left])

theorem takeWhile_drop_start (w : Word cs) :
    ((cs.drop w.before.length).takeWhile fun c => !endsWord c) = w.word := by
  rw [w.drop_start, List.takeWhile_append_of_pos fun c hc => by simp [w.run c hc]]
  cases hafter : w.after with
  | nil => exact List.append_nil _
  | cons c rest =>
    have hend := w.closed c (by rw [hafter]; rfl)
    rw [List.takeWhile_cons_of_neg (by simp [hend]), List.append_nil]

/-- A word that begins before another is over before the other begins. -/
theorem stop_lt (h : w'.before.length < w.before.length) :
    w'.before.length + w'.word.length < w.before.length := by
  by_contra hover
  obtain ⟨k, hk⟩ := Nat.exists_eq_add_of_lt h
  -- the character before the one word is in the other
  have hbefore : w.before = w'.before ++ w'.word.take (k + 1) := by
    have hprefix := congrArg (List.take w.before.length) w'.take_stop
    rwa [List.take_take, Nat.min_eq_left (Nat.le_of_not_lt hover), w.take_start, hk, Nat.add_assoc,
      List.take_length_add_append] at hprefix
  have hne : w'.word.take (k + 1) ≠ [] := by
    rw [← List.length_pos_iff, List.length_take]
    omega
  have hlast : (w'.word.take (k + 1)).getLast hne ∈ w.before.getLast? := by
    rw [hbefore, List.getLast?_append_of_ne_nil _ hne, List.getLast?_eq_getLast_of_ne_nil hne]
    rfl
  have hrun := w'.run _ (List.mem_of_mem_take (List.getLast_mem hne))
  rw [w.opened _ hlast] at hrun
  cases hrun

/-- There is one word around a place. -/
theorem Around.eq (h : w.Around i) (h' : w'.Around i) : w = w' := by
  have hlength : w.before.length = w'.before.length := by
    rcases Nat.lt_trichotomy w.before.length w'.before.length with hlt | heq | hlt
    · exact absurd (Nat.lt_of_le_of_lt h.2 (stop_lt hlt)) (Nat.not_lt.2 h'.1)
    · exact heq
    · exact absurd (Nat.lt_of_le_of_lt h'.2 (stop_lt hlt)) (Nat.not_lt.2 h.1)
  have hbefore : w.before = w'.before := by rw [← w.take_start, ← w'.take_start, hlength]
  have hword : w.word = w'.word := by
    rw [← w.takeWhile_drop_start, ← w'.takeWhile_drop_start, hlength]
  have hafter : w.word ++ w.after = w'.word ++ w'.after := by
    rw [← w.drop_start, ← w'.drop_start, hlength]
  rw [hword] at hafter
  exact Word.ext hbefore hword (List.append_cancel_left hafter)

/-! ### words as bytes -/

theorem encode_chars (w : Word cs) :
    Utf8.encode cs = Utf8.encode w.before ++ Utf8.encode w.word ++ Utf8.encode w.after := by
  rw [← Utf8.encode_append, ← Utf8.encode_append, ← w.chars]

/-- A word is the one around every offset in it. -/
theorem wordAt_eq (w : Word cs) {offset : Nat} (hlow : (Utf8.encode w.before).length ≤ offset)
    (hhigh : offset ≤ (Utf8.encode w.before).length + (Utf8.encode w.word).length) :
    Span.wordAt (Utf8.encode cs) offset = w.span := by
  rw [w.encode_chars]
  refine Span.wordAt_append (fun b hb => ?_) (fun b hb => ?_) (fun b hb => ?_) hlow hhigh
  · obtain ⟨c, hc, hb⟩ := List.mem_flatMap.1 hb
    rw [isWordEnd_of_mem hb, w.run c hc]
  · cases hlast : w.before.getLast? with
    | none =>
      rw [List.getLast?_eq_none_iff.1 hlast] at hb
      cases hb
    | some c =>
      obtain ⟨rest, hrest⟩ := List.getLast?_eq_some_iff.1 hlast
      rw [hrest, Utf8.encode_append, Utf8.encode_singleton,
        List.getLast?_append_of_ne_nil _ String.utf8EncodeChar_ne_nil] at hb
      rw [isWordEnd_of_mem (List.mem_of_mem_getLast? hb), w.opened c hlast]
  · cases hafter : w.after with
    | nil =>
      rw [hafter] at hb
      cases hb
    | cons c rest =>
      rw [hafter, Utf8.encode_cons, List.head?_append_of_ne_nil _ String.utf8EncodeChar_ne_nil]
        at hb
      rw [isWordEnd_of_mem (List.mem_of_mem_head? hb), w.closed c (by rw [hafter]; rfl)]

/-- Some word is around every offset. -/
theorem exists_of_offset {offset : Nat} (h : offset ≤ (Utf8.encode cs).length) :
    ∃ w : Word cs, (Utf8.encode w.before).length ≤ offset ∧
      offset ≤ (Utf8.encode w.before).length + (Utf8.encode w.word).length := by
  obtain ⟨pre, post, hsplit, hle, hend⟩ := Utf8.exists_split_at h
  have hpre : cs.take pre.length = pre := by rw [hsplit, List.take_left]
  have hlength : pre.length ≤ cs.length := by
    rw [hsplit, List.length_append]
    exact Nat.le_add_right ..
  obtain ⟨hlow, hhigh⟩ := around_wordAround hlength
  generalize wordAround cs pre.length = w at hlow hhigh
  refine ⟨w, (Utf8.length_encode_le_of_isPrefix ?_).trans hle, ?_⟩
  · rw [← w.take_start, ← hpre]
    exact List.take_prefix_take_left hlow
  · rw [← List.length_append, ← Utf8.encode_append, ← w.take_stop]
    rcases hend with rfl | ⟨c, hc, hwide, hwithin⟩
    · refine Utf8.length_encode_le_of_isPrefix ?_
      conv_lhs => rw [← hpre]
      exact List.take_prefix_take_left hhigh
    · -- the character that the offset is in ends no word, so that it is in the word, too
      have hbehind : pre.length ≠ w.before.length + w.word.length := by
        intro hstop
        have hend := w.closed c (by rwa [← w.drop_stop, ← hstop, hsplit, List.drop_left])
        exact absurd hwide (Nat.not_le.2 (lt_of_endsWord hend))
      have hnext : pre ++ [c] = cs.take (pre.length + 1) := by
        obtain ⟨rest, rfl⟩ := List.head?_eq_some_iff.1 hc
        rw [hsplit, List.take_length_add_append]
        rfl
      rw [hnext] at hwithin
      exact hwithin.trans
        (Utf8.length_encode_le_of_isPrefix (List.take_prefix_take_left (by omega)))

end Word

end Text

/-- A text becomes that of a field as it is if and only if a field can hold it. -/
theorem TextField.ofChars_chars_iff {cs : List Char} {cursor : Nat} :
    (ofChars cs cursor).chars = cs ↔ Proper { chars := cs } := by
  constructor
  · intro h
    obtain ⟨htakes, hshort⟩ := proper_ofChars cs cursor
    rw [h] at htakes hshort
    exact ⟨htakes, hshort⟩
  · rintro ⟨htakes, hshort⟩
    show (clean cs).take limit = cs
    rw [clean_eq_self_iff.2 htakes, List.take_of_length_le hshort]

/-- The word around the cursor. -/
def TextField.word (f : TextField) : Text.Word f.chars := Text.wordAround f.chars f.cursor

/-! ## the word that is found -/

namespace Prompt

variable {p : Prompt} {before word after : List Char} {name : String}

/-- The word that is found is the one around the cursor, if that begins where the prompt looks
for it or earlier; otherwise it is over before that begins. -/
theorem exists_refresh_word (hcursor : p.field.cursor ≤ p.field.chars.length) :
    ∃ w : Text.Word p.field.chars, p.refresh.word = w.span ∧
      (w = p.field.word ↔ (Utf8.encode p.field.word.before).length ≤ p.field.cursor) ∧
      (w ≠ p.field.word → w.before.length + w.word.length < p.field.word.before.length) := by
  obtain ⟨-, hhigh⟩ : p.field.word.Around p.field.cursor := Text.Word.around_wordAround hcursor
  by_cases hlow : (Utf8.encode p.field.word.before).length ≤ p.field.cursor
  · refine ⟨p.field.word, p.field.word.wordAt_eq hlow ?_, by simp [hlow], fun hne => absurd rfl hne⟩
    have hbefore := Utf8.length_le_length_encode p.field.word.before
    have hword := Utf8.length_le_length_encode p.field.word.word
    omega
  · obtain ⟨w, hstart, hstop⟩ :=
      Text.Word.exists_of_offset (hcursor.trans (Utf8.length_le_length_encode p.field.chars))
    have hearlier : w.before.length < p.field.word.before.length := by
      by_contra hlater
      refine hlow (Nat.le_trans (Utf8.length_encode_le_of_isPrefix ?_) hstart)
      rw [← w.take_start, ← p.field.word.take_start]
      exact List.take_prefix_take_left (Nat.le_of_not_lt hlater)
    have hne : w ≠ p.field.word := fun heq => absurd hearlier (heq ▸ Nat.lt_irrefl _)
    exact ⟨w, w.wordAt_eq hstart hstop, by simp [hne, hlow], fun _ => Text.Word.stop_lt hearlier⟩

/-! ## completions in place of the word -/

/-- The word of the prompt stands between two parts of the line. -/
structure Holds (p : Prompt) (before word after : List Char) : Prop where
  chars : p.field.chars = before ++ word ++ after
  word : p.word =
    ⟨(Utf8.encode before).length, (Utf8.encode before).length + (Utf8.encode word).length⟩

/-- A completion is put between what stands before the word and what stands behind it, and the
field takes what it can.  The cursor is moved by the bytes of the one and the other. -/
theorem Holds.replaceWord (h : p.Holds before word after) (name : String) :
    (p.replaceWord name).field =
      TextField.ofChars (before ++ name.toList ++ after)
        (Utf8.encode (before ++ name.toList)).length := by
  have hline : p.field.bytes = Utf8.encode before ++ Utf8.encode word ++ Utf8.encode after := by
    rw [TextField.bytes, h.chars, Utf8.encode_append, Utf8.encode_append]
  have hhead : p.field.bytes.take p.word.start = Utf8.encode before := by
    rw [hline, h.word, List.append_assoc, List.take_left]
  have htail : p.field.bytes.drop p.word.stop = Utf8.encode after := by
    rw [hline, h.word, ← List.length_append, List.drop_left]
  have hnew : p.word.replace p.field.bytes (Bytes.ofString name) =
      Utf8.encode (before ++ name.toList ++ after) := by
    rw [Span.replace, hhead, htail, Bytes.ofString, Utf8.encode_append, Utf8.encode_append]
  show TextField.ofChars (Utf8.decode (p.word.replace p.field.bytes (Bytes.ofString name)))
    (p.word.start + (Bytes.ofString name).length) = _
  rw [hnew, Utf8.decode_encode, h.word, Bytes.ofString, ← List.length_append, ← Utf8.encode_append]

/-- A completion stands between two parts of the line, as the word of the prompt, and the cursor
is at its end if its offset in bytes is the number of characters, or at the end of the line. -/
structure Completed (p : Prompt) (before after : List Char) (name : String) : Prop
    extends p.Holds before name.toList after where
  cursor : p.field.cursor = min (Utf8.encode (before ++ name.toList)).length p.field.chars.length

/-- The cursor stands behind the completed word when nothing follows or all before it are single
bytes. -/
theorem Completed.cursor_eq_iff (h : p.Completed before after name) :
    p.field.cursor = before.length + name.length ↔ after = [] ∨ ∀ c ∈ before ++ name.toList,
    c.toNat < 0x80 := by
  have hbytes := Utf8.length_le_length_encode (before ++ name.toList)
  rw [← Utf8.length_encode_eq_iff, h.cursor, h.chars, ← List.length_eq_zero_iff]
  simp only [List.length_append, String.length_toList] at hbytes ⊢
  omega

/-- The word is replaced in place when the line holds nothing before it but single bytes and fits
the field. -/
theorem Holds.replaceWord_chars_iff (h : p.Holds before word after) :
    (p.replaceWord name).field.chars = before ++ name.toList ++ after ↔
      TextField.Proper { chars := before ++ name.toList ++ after } := by
  rw [h.replaceWord]
  exact TextField.ofChars_chars_iff

/-- A completion that the field can hold stands in place of the word. -/
theorem Holds.completed (h : p.Holds before word after)
    (hproper : TextField.Proper { chars := before ++ name.toList ++ after }) :
    (p.replaceWord name).Completed before after name := by
  have hchars := h.replaceWord_chars_iff.2 hproper
  refine ⟨⟨hchars, ?_⟩, ?_⟩
  · show (⟨p.word.start, p.word.start + (Bytes.ofString name).length⟩ : Span) = _
    rw [h.word]
    rfl
  · rw [h.replaceWord, TextField.ofChars, TextField.moveTo]

/-! ## steps -/

/-- A step puts a completion in place of the word, and keeps the completions if there is a
choice. -/
theorem exists_step (hsome : p.completions ≠ []) (forward : Bool) :
    ∃ name ∈ p.completions, (p.step forward).field = (p.replaceWord name).field ∧
      (p.step forward).word = (p.replaceWord name).word ∧
      ((p.step forward).completions = p.completions ∨ (p.step forward).completions = []) := by
  rcases Nat.lt_or_ge 1 p.completions.length with hmany | hfew
  · obtain ⟨i, hi, before, -, hstep⟩ := step_choice hmany forward
    rw [hstep]
    exact ⟨p.completions[i], List.getElem_mem hi, rfl, rfl, .inl rfl⟩
  · cases hnames : p.completions with
    | nil => exact absurd hnames hsome
    | cons name rest =>
      have hrest : rest = [] := by
        rw [hnames, List.length_cons] at hfew
        exact List.length_eq_zero_iff.1 (by omega)
      subst hrest
      refine ⟨name, List.mem_singleton_self name, ?_⟩
      unfold step
      rw [hnames]
      exact ⟨rfl, rfl, .inr rfl⟩

theorem step_nil (hnone : p.completions = []) (forward : Bool) : p.step forward = p := by
  unfold step
  rw [hnone]

/-- Showing the next match replaces the word that is held. -/
theorem Holds.step (h : p.Holds before word after) (hsome : p.completions ≠ [])
    (hproper : ∀ name ∈ p.completions, TextField.Proper { chars := before ++ name.toList ++ after })
    (forward : Bool) :
    ∃ name ∈ p.completions, (p.step forward).Completed before after name ∧
      ∀ name ∈ (p.step forward).completions, name ∈ p.completions := by
  obtain ⟨name, hname, hfield, hword, hkept⟩ := exists_step hsome forward
  have hcompleted := h.completed (hproper name hname)
  refine ⟨name, hname, ⟨⟨by rw [hfield, hcompleted.chars], by rw [hword, hcompleted.word]⟩, ?_⟩, ?_⟩
  · rw [hfield, hcompleted.cursor]
  · rcases hkept with heq | heq <;> simp [heq]

/-- Further steps put one completion after the other in place of the first, as long as there is
a choice. -/
theorem Completed.steps (h : p.Completed before after name)
    (hproper : ∀ name ∈ p.completions, TextField.Proper { chars := before ++ name.toList ++ after })
    (steps : List Bool) :
    ∃ last, (last = name ∨ last ∈ p.completions) ∧
    (steps.foldl Prompt.step p).Completed before after last := by
  induction steps generalizing p name with
  | nil => exact ⟨name, .inl rfl, h⟩
  | cons forward steps ih =>
    by_cases hnone : p.completions = []
    · have hsame := ih h hproper
      rwa [List.foldl_cons, step_nil hnone]
    · obtain ⟨next, hnext, hcompleted, hsubset⟩ := h.toHolds.step hnone hproper forward
      obtain ⟨last, hlast, hsteps⟩ := ih hcompleted fun name hname =>
        hproper name (hsubset name hname)
      refine ⟨last, .inr ?_, hsteps⟩
      rcases hlast with rfl | hlast
      · exact hnext
      · exact hsubset last hlast

end Prompt

/-- The prompt finds the word around the cursor if and only if the bytes before that word are no
more than the characters before the cursor, as they are in a line that is ASCII; otherwise it
finds a word that is over before that one begins.  A step puts a completion in place of the word
that was found, and nothing else changes, if and only if the field can hold the line that comes
of it.  If it can hold all of them, any number of steps leave one completion there.  The cursor is
then right behind it if and only if the line ends there, or everything up to there is ASCII. -/
theorem word_replaced_iff {p : Prompt} (hcursor : p.field.cursor ≤ p.field.chars.length) :
    ∃ w : Text.Word p.field.chars, p.refresh.word = w.span ∧
      (w = p.field.word ↔ (Utf8.encode p.field.word.before).length ≤ p.field.cursor) ∧
      (w ≠ p.field.word → w.before.length + w.word.length < p.field.word.before.length) ∧
      (∀ forward, p.refresh.completions ≠ [] → ∃ name ∈ p.refresh.completions,
        ((p.refresh.step forward).field.chars = w.put name ↔
          TextField.Proper { chars := w.put name })) ∧
      ∀ steps, steps ≠ [] → p.refresh.completions ≠ [] →
        (∀ name ∈ p.refresh.completions, TextField.Proper { chars := w.put name }) →
        ∃ name ∈ p.refresh.completions,
          (steps.foldl Prompt.step p.refresh).field.chars = w.put name ∧
            ((steps.foldl Prompt.step p.refresh).field.cursor = w.before.length + name.length ↔
              w.after = [] ∨ ∀ c ∈ w.before ++ name.toList, c.toNat < 0x80) := by
  obtain ⟨w, hspan, hword, hearlier⟩ := Prompt.exists_refresh_word hcursor
  have hholds : p.refresh.Holds w.before w.word w.after := ⟨w.chars, hspan⟩
  refine ⟨w, hspan, hword, hearlier, fun forward hsome => ?_, fun steps hsteps hsome hproper => ?_⟩
  · obtain ⟨name, hname, hfield, -⟩ := Prompt.exists_step hsome forward
    refine ⟨name, hname, ?_⟩
    rw [hfield]
    exact hholds.replaceWord_chars_iff
  · obtain ⟨forward, steps, rfl⟩ := List.exists_cons_of_ne_nil hsteps
    obtain ⟨first, hfirst, hcompleted, hsubset⟩ := hholds.step hsome hproper forward
    obtain ⟨last, hlast, hsteps⟩ :=
      hcompleted.steps (fun name hname => hproper name (hsubset name hname)) steps
    refine ⟨last, ?_, hsteps.chars, hsteps.cursor_eq_iff⟩
    rcases hlast with rfl | hlast
    · exact hfirst
    · exact hsubset last hlast

/-- The cursor is not behind the completion of a word that follows a character of two bytes. -/
theorem accented_misplaces_cursor :
    let p : Prompt := { session := default, mode := .command, field := ⟨['é', '+', 'h', '+'], 3⟩ }
    p.field.cursor ≤ p.field.chars.length ∧ p.refresh.completions = ["help", "graph"] ∧
      p.refresh.word = p.field.word.span ∧
      ∃ name ∈ p.refresh.completions, (p.refresh.step true).field.chars = p.field.word.put name ∧
        (p.refresh.step true).field.cursor ≠ p.field.word.before.length + name.length := by
  intro p
  have hcursor : p.field.cursor ≤ p.field.chars.length := by decide
  have hcompletions : p.refresh.completions = ["help", "graph"] := by decide +kernel
  have hlow : (Utf8.encode p.field.word.before).length ≤ p.field.cursor := by decide +kernel
  have hbefore : p.field.word.before = ['é', '+'] := by decide +kernel
  have hafter : p.field.word.after ≠ [] := by decide +kernel
  obtain ⟨w, hspan, hword, -, -, hsteps⟩ := word_replaced_iff hcursor
  obtain rfl := hword.2 hlow
  have hproper : ∀ name ∈ p.refresh.completions,
      TextField.Proper { chars := p.field.word.put name } := by
    have hkept : ∀ name ∈ ["help", "graph"], TextField.clean (p.field.word.put name) =
        p.field.word.put name ∧
        (p.field.word.put name).length ≤ TextField.limit := by
      decide +kernel
    rw [hcompletions]
    exact fun name hname =>
      ⟨TextField.clean_eq_self_iff.1 (hkept name hname).1, (hkept name hname).2⟩
  obtain ⟨name, hname, hchars, hright⟩ := hsteps [true] (by simp) (by simp [hcompletions]) hproper
  refine ⟨hcursor, hcompletions, hspan, name, hname, hchars, fun heq => ?_⟩
  rcases hright.1 heq with hnil | hascii
  · exact hafter hnil
  · have hwide := hascii 'é' (by simp [hbefore])
    revert hwide
    decide

end EffectChain
