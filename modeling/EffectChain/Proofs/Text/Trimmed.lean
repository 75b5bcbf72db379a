import EffectChain.Proofs.Text.Utf8
import EffectChain.Text.Basic
import Mathlib.Data.List.TakeWhile

/-!
# EffectChain.Proofs.Text.Trimmed

Texts without white space at their ends.

A trimmed text has nothing to trim left (`Text.trimBoth_trimBoth`).  Bytes are trimmed glyph by
glyph, and as glyphs cut off from a text are read as they were in it (`Utf8.glyphs_flatMap`), what
is shown for trimmed bytes is what is shown for the bytes, trimmed (`Text.toString_trimSpaceBytes`).
-/

namespace EffectChain

namespace Utf8

/-! ## glyphs cut off from a text -/

/-- A glyph that is read from some bytes is read from them where no more are. -/
theorem glyphAt_of_append {a : UInt8} {front more : Bytes}
    (h : (glyphAt a (front ++ more)).bytes.length ≤ front.length + 1) :
    glyphAt a front = glyphAt a (front ++ more) := by
  unfold glyphAt at h ⊢
  split_ifs at h ⊢
  case pos => rfl
  case neg => rfl
  · rcases front with _ | ⟨b, front⟩
    · rcases more with _ | ⟨b, more⟩
      · rfl
      · cases hb : isTail b <;> simp_all [Glyph.bytes]
    · rfl
  · rcases front with _ | ⟨b, _ | ⟨c, front⟩⟩ <;> rcases more with _ | ⟨d, _ | ⟨e, more⟩⟩
      <;> try rfl
    all_goals
      simp only [List.nil_append, List.cons_append, List.length_nil, List.length_cons] at h ⊢
      split at h
      · simp [Glyph.bytes] at h
      · rw [if_neg ‹_›]
  · rcases front with _ | ⟨b, _ | ⟨c, _ | ⟨d, front⟩⟩⟩ <;> rcases more with _
      | ⟨e, _ | ⟨f, _ | ⟨g, more⟩⟩⟩ <;> try rfl
    all_goals
      simp only [List.nil_append, List.cons_append, List.length_nil, List.length_cons] at h ⊢
      split at h
      · simp [Glyph.bytes] at h
      · rw [if_neg ‹_›]

/-- Glyphs that stand at the front of a text are read from their own bytes. -/
theorem glyphs_flatMap_front {bs : Bytes} {front back : List Glyph}
    (h : glyphs bs = front ++ back) :
    glyphs (front.flatMap Glyph.bytes) = front := by
  induction front generalizing bs with
  | nil => rw [List.flatMap_nil, glyphs_nil]
  | cons g front ih =>
    cases bs with
    | nil => simp at h
    | cons a rest =>
      rw [glyphs_cons, List.cons_append, List.cons.injEq] at h
      obtain ⟨hfirst, hback⟩ := h
      obtain ⟨more, hbytes, hprefix⟩ := exists_bytes_glyphAt a rest
      obtain ⟨rest, rfl⟩ := hprefix
      rw [hbytes, List.length_cons, List.drop_succ_cons, List.drop_left] at hback
      have hrest : rest = front.flatMap Glyph.bytes ++ back.flatMap Glyph.bytes := by
        rw [← List.flatMap_append, ← hback, flatMap_bytes_glyphs]
      rw [hrest, ← List.append_assoc] at hbytes hfirst
      have hcut : glyphAt a (more ++ front.flatMap Glyph.bytes) = g := by
        rw [glyphAt_of_append (by rw [hbytes]; simp), hfirst]
      rw [List.flatMap_cons, ← hfirst, hbytes, List.cons_append, glyphs_cons, hcut, ← hfirst,
        hbytes, List.length_cons, List.drop_succ_cons, List.drop_left, ih hback]

/-- So are glyphs that stand anywhere in it. -/
theorem glyphs_flatMap {bs : Bytes} {front gs back : List Glyph}
    (h : glyphs bs = front ++ gs ++ back) :
    glyphs (gs.flatMap Glyph.bytes) = gs := by
  induction front generalizing bs with
  | nil => exact glyphs_flatMap_front h
  | cons g front ih =>
    cases bs with
    | nil => simp at h
    | cons a rest =>
      rw [glyphs_cons, List.cons_append, List.cons_append, List.cons.injEq] at h
      exact ih h.2

/-- The glyphs of an encoded text are its characters, each with its own bytes. -/
theorem glyphs_encode (cs : List Char) :
    glyphs (encode cs) = cs.map fun c => .char c (String.utf8EncodeChar c) := by
  induction cs with
  | nil => exact glyphs_nil
  | cons c cs ih =>
    obtain ⟨a, more, hbytes, hglyph⟩ := glyphAt_utf8EncodeChar c
    rw [encode_cons, List.map_cons, hbytes, List.cons_append, glyphs_cons, hglyph, Glyph.bytes,
      List.length_cons, List.drop_succ_cons, List.drop_left, ih]

end Utf8

namespace Text

/-! ## ends -/

section Trimmed

variable {α : Type} {p : α → Bool}

/-- Nothing is dropped from a list that starts with something that stays. -/
theorem dropWhile_eq_self {xs : List α} (h : ∀ x ∈ xs.head?, p x = false) :
    xs.dropWhile p = xs := by
  cases xs with
  | nil => rfl
  | cons x xs => rw [List.dropWhile_cons_of_neg (by simp [h x rfl])]

/-- What is left after dropping starts with something that stays. -/
theorem head?_dropWhile (xs : List α) : ∀ x ∈ (xs.dropWhile p).head?, p x = false := by
  intro x hx
  have hnot := List.head?_dropWhile_not p xs
  rw [Option.mem_def.1 hx] at hnot
  simpa using hnot

/-- A list that starts and ends with something that stays is trimmed already. -/
theorem trimBoth_eq_self {xs : List α} (hhead : ∀ x ∈ xs.head?, p x = false)
    (hlast : ∀ x ∈ xs.getLast?, p x = false) :
    trimBoth p xs = xs := by
  rw [trimBoth, dropWhile_eq_self hhead, dropWhile_eq_self (by simpa using hlast),
    List.reverse_reverse]

theorem trimBoth_initial (xs : List α) : trimBoth p xs <+: xs.dropWhile p := by
  have hlast := List.reverse_prefix.2 (List.dropWhile_suffix p (l := (xs.dropWhile p).reverse))
  rwa [List.reverse_reverse] at hlast

theorem trimBoth_sublist (xs : List α) : (trimBoth p xs).Sublist xs :=
  (trimBoth_initial xs).sublist.trans (List.dropWhile_suffix p).sublist

/-- A trimmed list starts with something that stays. -/
theorem head?_trimBoth (xs : List α) : ∀ x ∈ (trimBoth p xs).head?, p x = false := by
  intro x hx
  obtain ⟨rest, hrest⟩ := trimBoth_initial (p := p) xs
  refine head?_dropWhile xs x ?_
  rw [← hrest, List.head?_append, Option.mem_def.1 hx]
  rfl

/-- A trimmed list ends with something that stays. -/
theorem getLast?_trimBoth (xs : List α) : ∀ x ∈ (trimBoth p xs).getLast?, p x = false := by
  rw [trimBoth, List.getLast?_reverse]
  exact head?_dropWhile _

/-- Trimming twice is trimming once. -/
theorem trimBoth_trimBoth (xs : List α) : trimBoth p (trimBoth p xs) = trimBoth p xs :=
  trimBoth_eq_self (head?_trimBoth xs) (getLast?_trimBoth xs)

/-- What is trimmed off stands before and behind what is left. -/
theorem exists_trimBoth (p : α → Bool) (xs : List α) :
    ∃ front back, xs = front ++ trimBoth p xs ++ back ∧
    (∀ x ∈ front, p x = true) ∧ ∀ x ∈ back, p x = true := by
  refine ⟨xs.takeWhile p, (((xs.dropWhile p).reverse).takeWhile p).reverse, ?_,
    fun x hx => List.mem_takeWhile_imp hx,
      fun x hx => List.mem_takeWhile_imp (List.mem_reverse.1 hx)⟩
  rw [List.append_assoc, trimBoth, ← List.reverse_append, List.takeWhile_append_dropWhile,
    List.reverse_reverse, List.takeWhile_append_dropWhile]

/-- Nothing else is trimmed off. -/
theorem trimBoth_between {front xs back : List α} (hfront : ∀ x ∈ front, p x = true)
    (hback : ∀ x ∈ back, p x = true) (hne : xs ≠ []) (hxs : trimBoth p xs = xs) :
    trimBoth p (front ++ xs ++ back) = xs := by
  have hhead := head?_trimBoth (p := p) xs
  have hlast := getLast?_trimBoth (p := p) xs
  rw [hxs] at hhead hlast
  have hdrop : (front ++ xs ++ back).dropWhile p = xs ++ back := by
    rw [List.append_assoc, List.dropWhile_append_of_pos hfront]
    obtain ⟨x, more, rfl⟩ := List.exists_cons_of_ne_nil hne
    exact dropWhile_eq_self (by simpa using hhead)
  have hdrop' : (xs ++ back).reverse.dropWhile p = xs.reverse := by
    rw [List.reverse_append, List.dropWhile_append_of_pos (by simpa using hback)]
    exact dropWhile_eq_self (by simpa using hlast)
  rw [trimBoth, hdrop, hdrop', List.reverse_reverse]

/-- Trimming commutes with a map that respects what is trimmed. -/
theorem trimBoth_map {β : Type} (f : β → α) (xs : List β) :
    trimBoth p (xs.map f) = (trimBoth (fun x => p (f x)) xs).map f := by
  have hdrop : ∀ xs : List β, (xs.map f).dropWhile p = (xs.dropWhile fun x => p (f x)).map f :=
      fun xs =>
    List.dropWhile_map ..
  rw [trimBoth, trimBoth, hdrop, ← List.map_reverse, hdrop, List.map_reverse]

end Trimmed

theorem trimSpace_trimSpace (s : String) : trimSpace (trimSpace s) = trimSpace s := by
  rw [trimSpace, trimSpace, String.toList_ofList, trimBoth_trimBoth]

theorem mem_of_mem_trimSpace {s : String} {c : Char} (h : c ∈ (trimSpace s).toList) :
    c ∈ s.toList := by
  rw [trimSpace, String.toList_ofList] at h
  exact (trimBoth_sublist _).subset h

/-! ## bytes -/

/-- What is shown for trimmed bytes is trimmed. -/
theorem toString_trimSpaceBytes (bs : Bytes) :
    Bytes.toString (trimSpaceBytes bs) = trimSpace (Bytes.toString bs) := by
  obtain ⟨front, back, heq, -⟩ := exists_trimBoth (fun g => isSpace g.toChar) (Utf8.glyphs bs)
  rw [Bytes.toString, Utf8.decode, trimSpaceBytes, Utf8.glyphs_flatMap heq, trimSpace,
    Bytes.toString, String.toList_ofList, Utf8.decode, trimBoth_map]

/-- The bytes of a text are trimmed as its characters are. -/
theorem trimSpaceBytes_ofString (s : String) :
    trimSpaceBytes (Bytes.ofString s) = Bytes.ofString (trimSpace s) := by
  rw [trimSpaceBytes, Bytes.ofString, Utf8.glyphs_encode, trimBoth_map, List.flatMap_map,
    Bytes.ofString, trimSpace, String.toList_ofList, Utf8.encode]
  rfl

end Text

end EffectChain
