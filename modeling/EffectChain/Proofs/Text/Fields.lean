import EffectChain.Proofs.Text.Quoted
import EffectChain.Token.Lexer
import Mathlib.Data.List.TakeWhile

/-!
# EffectChain.Proofs.Text.Fields

Lines of fields.  A field is a blank, a key, an equals sign and a value; a value may
hold blanks and equals signs, so where it ends is not plain from its length or from one
character.

`breaks` says where a field or the end of a line begins.  A text that `isClear` has no
such place in it, so it ends at the first one after it (`clear_append`).  With keys that
are words and values that are clear or quoted, a line tells its fields
(`fields_append`).
-/

namespace EffectChain.Fields

/-- A field or the end of the line begins here.  An equals sign that is doubled
compares and does not count. -/
def breaks : List Char → Bool
  | [] => false
  | c :: cs =>
    if c = '\n' then true
    else if c = ' ' then
      !(cs.takeWhile Lexer.isNamePart).isEmpty &&
        (cs.dropWhile Lexer.isNamePart).head? == some '=' &&
        ((cs.dropWhile Lexer.isNamePart).drop 1).head? != some '='
    else false

/-- No field and no end of a line begins within the text. -/
def isClear : List Char → Bool
  | [] => true
  | c :: cs => !breaks (c :: cs) && isClear cs

/-! ## places -/

/-- A field breaks off at a newline, or at a blank before the key of the next. -/
theorem breaks_cons (c : Char) (cs : List Char) : breaks (c :: cs) =
    if c = '\n' then true
    else if c = ' ' then
      !(cs.takeWhile Lexer.isNamePart).isEmpty &&
        (cs.dropWhile Lexer.isNamePart).head? == some '=' &&
        ((cs.dropWhile Lexer.isNamePart).drop 1).head? != some '='
    else false := rfl

/-- A break starts with a newline or a blank. -/
theorem breaks_head {r : List Char} (h : breaks r = true) :
    ∃ c cs, r = c :: cs ∧ (c = '\n' ∨ c = ' ') := by
  cases r with
  | nil => simp [breaks] at h
  | cons c cs =>
    refine ⟨c, cs, rfl, ?_⟩
    rw [breaks_cons] at h
    split at h
    · exact .inl ‹_›
    · split at h
      · exact .inr ‹_›
      · simp at h

/-- What stands behind a text does not make a place of it. -/
theorem breaks_append {c : Char} {v r : List Char} (hv : breaks (c :: v) = false)
    (hr : breaks r = true) :
    breaks (c :: v ++ r) = false := by
  obtain ⟨d, r, rfl, hd⟩ := breaks_head hr
  have hname : Lexer.isNamePart d = false := by rcases hd with rfl | rfl <;> decide
  have hequals : d ≠ '=' := by rcases hd with rfl | rfl <;> decide
  rw [List.cons_append, breaks_cons]
  rw [breaks_cons] at hv
  split
  · rename_i hc
    rw [if_pos hc] at hv
    simp at hv
  · rename_i hc
    rw [if_neg hc] at hv
    split
    · rename_i hb
      rw [if_pos hb] at hv
      -- the key ends within the text, or the text is all key and a blank follows
      by_cases hall : ∀ x ∈ v, Lexer.isNamePart x = true
      · rw [List.dropWhile_append_of_pos hall, List.dropWhile_cons_of_neg (by simp [hname])]
        simp [hequals]
      · have hdrop : v.dropWhile Lexer.isNamePart ≠ [] :=
          fun h => hall (List.dropWhile_eq_nil_iff.1 h)
        obtain ⟨x, w, hw⟩ := List.exists_cons_of_ne_nil hdrop
        have htake : (v ++ d :: r).takeWhile Lexer.isNamePart = v.takeWhile Lexer.isNamePart := by
          rw [List.takeWhile_append, if_neg]
          intro hlen
          have hsplit :=
            congrArg List.length (List.takeWhile_append_dropWhile (p := Lexer.isNamePart) (l := v))
          rw [List.length_append, hlen, hw] at hsplit
          simp at hsplit
        have hrest : (v ++ d :: r).dropWhile Lexer.isNamePart = x :: w ++ d :: r := by
          rw [List.dropWhile_append, hw]
          rfl
        rw [hw] at hv
        rw [htake, hrest]
        cases w with
        | nil => simpa [hequals] using hv
        | cons y w => simpa using hv
    · rfl

/-- A clear text ends at the first place after it. -/
theorem clear_append {v w r s : List Char} (hv : isClear v = true) (hw : isClear w = true)
    (hr : breaks r = true) (hs : breaks s = true) (h : v ++ r = w ++ s) : v = w ∧ r = s := by
  induction v generalizing w with
  | nil =>
    cases w with
    | nil => exact ⟨rfl, h⟩
    | cons d w =>
      rw [isClear, Bool.and_eq_true, Bool.not_eq_true'] at hw
      rw [List.nil_append] at h
      rw [h, breaks_append hw.1 hs] at hr
      cases hr
  | cons c v ih =>
    rw [isClear, Bool.and_eq_true, Bool.not_eq_true'] at hv
    cases w with
    | nil =>
      rw [List.nil_append] at h
      rw [← h, breaks_append hv.1 hr] at hs
      cases hs
    | cons d w =>
      rw [isClear, Bool.and_eq_true, Bool.not_eq_true'] at hw
      rw [List.cons_append, List.cons_append, List.cons.injEq] at h
      obtain ⟨htext, hrest⟩ := ih hv.2 hw.2 h.2
      rw [h.1, htext]
      exact ⟨rfl, hrest⟩

/-! ## texts that are clear -/

theorem isClear_cons {c : Char} {v : List Char} (hc : c ≠ '\n' ∧ c ≠ ' ') (hv : isClear v = true) :
    isClear (c :: v) = true := by
  rw [isClear, breaks_cons, if_neg hc.1, if_neg hc.2, hv]
  rfl

/-- A text without newlines and blanks keeps a text clear. -/
theorem isClear_append {u v : List Char} (hu : ∀ c ∈ u, c ≠ '\n' ∧ c ≠ ' ')
    (hv : isClear v = true) :
    isClear (u ++ v) = true := by
  induction u with
  | nil => exact hv
  | cons c u ih =>
    exact isClear_cons (hu c (by simp)) (ih fun d hd => hu d (List.mem_cons_of_mem c hd))

/-- A line without equals signs has one field at most. -/
theorem isClear_of_notMem {v : List Char} (hn : '\n' ∉ v) (he : '=' ∉ v) : isClear v = true := by
  induction v with
  | nil => rfl
  | cons c v ih =>
    rw [List.mem_cons, not_or] at hn he
    have hhead : (v.dropWhile Lexer.isNamePart).head? ≠ some '=' := fun h =>
      he.2 ((List.dropWhile_suffix _).subset (List.mem_of_mem_head? h))
    rw [isClear, ih hn.2 he.2, breaks_cons, if_neg (Ne.symm hn.1)]
    split
    · simp [hhead]
    · rfl

/-! ## values and fields -/

/-- A value whose end can be told: quoted, or clear and not like a quoted one. -/
inductive Sealed : List Char → Prop
  | quoted (bs : Bytes) : Sealed (Text.quoteBytes bs).toList
  | clear {c : Char} {v : List Char} (hquote : c ≠ '"') (hequals : c ≠ '=')
      (hclear : isClear (c :: v) = true) : Sealed (c :: v)

/-- Sealed texts end at the same place. -/
theorem Sealed.append {v w r s : List Char} (hv : Sealed v) (hw : Sealed w) (hr : breaks r = true)
    (hs : breaks s = true) (h : v ++ r = w ++ s) : v = w ∧ r = s := by
  cases hv with
  | quoted as =>
    cases hw with
    | quoted bs =>
      obtain ⟨rfl, hrest⟩ := Text.quoteBytes_append h
      exact ⟨rfl, hrest⟩
    | clear hquote =>
      rw [Text.toList_quoteBytes] at h
      exact absurd (List.cons.inj h).1.symm hquote
  | clear hquote hequals hclear =>
    cases hw with
    | quoted bs =>
      rw [Text.toList_quoteBytes] at h
      exact absurd (List.cons.inj h).1 hquote
    | clear hquote' hequals' hclear' => exact clear_append hclear hclear' hr hs h

/-- A key that a field can have: a name. -/
def isWord (key : String) : Bool := !key.toList.isEmpty && key.toList.all Lexer.isNamePart

theorem isWord_iff (key : String) :
    isWord key = true ↔ key.toList ≠ [] ∧ ∀ c ∈ key.toList, Lexer.isNamePart c = true := by
  simp [isWord]

/-- A field as it stands in a line. -/
def text (f : String × String) : List Char := ' ' :: f.1.toList ++ '=' :: f.2.toList

theorem text_append (k v : String) (r : List Char) :
    text (k, v) ++ r = ' ' :: (k.toList ++ '=' :: (v.toList ++ r)) := by
  simp [text]

/-- The field can be told from the ones around it. -/
structure Legible (f : String × String) : Prop where
  key : isWord f.1 = true
  value : Sealed f.2.toList

/-- A legible field starts with a break. -/
theorem Legible.breaks {f : String × String} (h : Legible f) (r : List Char) :
    Fields.breaks (text f ++ r) = true := by
  obtain ⟨k, v⟩ := f
  obtain ⟨hne, hkey⟩ := (isWord_iff k).1 h.key
  have hequals : Lexer.isNamePart '=' = false := by decide
  have hvalue : (v.toList ++ r).head? ≠ some '=' := by
    have hsealed := h.value
    dsimp only at hsealed
    generalize v.toList = w at hsealed
    cases hsealed with
    | quoted bs => simp [Text.toList_quoteBytes]
    | clear hquote heq => simpa using heq
  rw [text_append, breaks_cons, if_neg (by decide), if_pos rfl, List.takeWhile_append_of_pos hkey,
    List.dropWhile_append_of_pos hkey, List.takeWhile_cons_of_neg (by simp [hequals]),
    List.dropWhile_cons_of_neg (by simp [hequals])]
  simpa [hne] using hvalue

/-- The fields of a line and what stands behind it. -/
theorem fields_append {fs gs : List (String × String)} (hfs : ∀ f ∈ fs, Legible f)
    (hgs : ∀ g ∈ gs, Legible g) {r s : List Char}
    (h : fs.flatMap text ++ '\n' :: r = gs.flatMap text ++ '\n' :: s) : fs = gs ∧ r = s := by
  have hends : ∀ (es : List (String × String)) (t : List Char), (∀ e ∈ es, Legible e) →
      breaks (es.flatMap text ++ '\n' :: t) = true := by
    intro es t hes
    cases es with
    | nil => rfl
    | cons e es =>
      rw [List.flatMap_cons, List.append_assoc]
      exact (hes e (by simp)).breaks _
  induction fs generalizing gs with
  | nil =>
    cases gs with
    | nil => exact ⟨rfl, (List.cons.inj h).2⟩
    | cons g gs => exact absurd (List.cons.inj h).1 (by decide)
  | cons f fs ih =>
    cases gs with
    | nil => exact absurd (List.cons.inj h).1 (by decide)
    | cons g gs =>
      obtain ⟨k, v⟩ := f
      obtain ⟨l, w⟩ := g
      have hf := hfs (k, v) (by simp)
      have hg := hgs (l, w) (by simp)
      have hfs' : ∀ f ∈ fs, Legible f := fun f hf => hfs f (List.mem_cons_of_mem _ hf)
      have hgs' : ∀ g ∈ gs, Legible g := fun g hg => hgs g (List.mem_cons_of_mem _ hg)
      rw [List.flatMap_cons, List.flatMap_cons, List.append_assoc, List.append_assoc, text_append,
        text_append, List.cons.injEq] at h
      -- the key is all that can be a name
      have hequals : Lexer.isNamePart '=' = false := by decide
      have hkey : k.toList = l.toList := by
        have := congrArg (List.takeWhile Lexer.isNamePart) h.2
        rwa [List.takeWhile_append_of_pos ((isWord_iff k).1 hf.key).2,
          List.takeWhile_append_of_pos ((isWord_iff l).1 hg.key).2,
          List.takeWhile_cons_of_neg (by simp [hequals]),
          List.takeWhile_cons_of_neg (by simp [hequals]), List.append_nil, List.append_nil] at this
      have hvalue := List.append_cancel_left (hkey ▸ h.2)
      obtain ⟨hvw, hrest⟩ := hf.value.append hg.value (hends fs r hfs') (hends gs s hgs')
        (List.cons.inj hvalue).2
      obtain ⟨hfields, hend⟩ := ih hfs' hgs' hrest
      obtain rfl : k = l := String.toList_inj.1 hkey
      obtain rfl : v = w := String.toList_inj.1 hvw
      exact ⟨by rw [hfields], hend⟩

end EffectChain.Fields
