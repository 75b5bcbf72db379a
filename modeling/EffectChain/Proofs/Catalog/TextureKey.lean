import EffectChain.Catalog.Texture
import EffectChain.Proofs.Plan.Shown

/-!
# EffectChain.Proofs.Catalog.TextureKey

What the key of a texture tells of its storage.

* `TextureSpec.key_eq_iff` — it tells the format, the dimension and, when neither width
  nor height follows the viewport, the sizes;
* `TextureSpec.sameClass_of_key_eq` — so textures with equal keys take up the same in every
  viewport, unless one of them fixes a width or a height alone: a key does not tell the one
  size it fixes.
-/

namespace EffectChain

/-! ## whole numbers -/

theorem toList_toString_int (z : Int) :
    (toString z).toList = (if z < 0 then ['-'] else []) ++ (toString z.natAbs).toList := by
  cases z with
  | ofNat n => rfl
  | negSucc n =>
      rw [if_pos (Int.negSucc_lt_zero n), Int.natAbs_negSucc]
      change ("-" ++ Nat.repr (n + 1)).toList = _
      rw [String.toList_append]
      rfl

theorem ne_of_mem_toString_int {z : Int} {c : Char} (hc : c ∈ (toString z).toList) :
    c ≠ 'x' ∧ c ≠ 'd' := by
  rw [toList_toString_int, List.mem_append] at hc
  rcases hc with hc | hc
  · split at hc
    · obtain rfl := List.mem_singleton.1 hc
      decide
    · cases hc
  · have hdigit := toString_digits _ c hc
    constructor <;> rintro rfl <;> exact absurd hdigit (by decide)

/-- A whole number ends before the first character that is no digit. -/
theorem int_append_inj {a b : Int} {r s : List Char} (hr : ∀ c ∈ r.head?, c.isDigit = false)
    (hs : ∀ c ∈ s.head?, c.isDigit = false)
    (h : (toString a).toList ++ r = (toString b).toList ++ s) : a = b ∧ r = s := by
  have hsign : ∀ n : Nat, ∀ r : List Char, ((toString n).toList ++ r).head? ≠ some '-' := by
    intro n r hhead
    obtain ⟨c, cs, hn, hdigit⟩ := toString_head n
    rw [hn] at hhead
    obtain rfl : c = '-' := by simpa using hhead
    exact absurd hdigit (by decide)
  rw [toList_toString_int, toList_toString_int, List.append_assoc, List.append_assoc] at h
  by_cases ha : a < 0 <;> by_cases hb : b < 0
  · rw [if_pos ha, if_pos hb] at h
    obtain ⟨hab, hrs⟩ := toString_append_inj hr hs (List.append_cancel_left h)
    exact ⟨by omega, hrs⟩
  · rw [if_pos ha, if_neg hb] at h
    exact absurd (congrArg List.head? h).symm (hsign b.natAbs s)
  · rw [if_neg ha, if_pos hb] at h
    exact absurd (congrArg List.head? h) (hsign a.natAbs r)
  · rw [if_neg ha, if_neg hb] at h
    obtain ⟨hab, hrs⟩ := toString_append_inj hr hs h
    exact ⟨by omega, hrs⟩

namespace TextureSpec

variable {s t : TextureSpec}

/-! ## keys -/

/-- The sizes in a key. -/
def sizeText (s : TextureSpec) : List Char :=
  '-' :: ((toString s.width).toList ++ 'x' :: ((toString s.height).toList ++
    if s.volume then 'x' :: (toString s.depth).toList else []))

theorem toList_key (s : TextureSpec) :
    s.key.toList = s.format.text.toList ++ ((if s.volume then ['-', '3', 'd'] else []) ++
      if s.follows then [] else s.sizeText) := by
  unfold key sizeText
  cases s.volume <;> cases s.follows <;> simp [String.toList_append]

/-- Formats are told by their texts, which have no dash. -/
theorem format_append_inj {f f' : TextureFormat} {r r' : List Char}
    (hr : r = [] ∨ r.head? = some '-') (hr' : r' = [] ∨ r'.head? = some '-')
    (h : f.text.toList ++ r = f'.text.toList ++ r') : f = f' ∧ r = r' := by
  have hstop : ∀ (f : TextureFormat) (r : List Char), r = [] ∨ r.head? = some '-' →
      (f.text.toList ++ r).takeWhile (· ≠ '-') = f.text.toList := by
    intro f r hr
    have hall : ∀ c ∈ f.text.toList, decide (c ≠ '-') = true := by
      cases f <;> simp [TextureFormat.text]
    rw [List.takeWhile_append_of_pos hall]
    cases r with
    | nil => simp
    | cons c r =>
        obtain rfl : c = '-' := by simpa using hr
        simp
  have htext : f.text.toList = f'.text.toList := by rw [← hstop f r hr, ← hstop f' r' hr', h]
  have hformat : f = f' := by
    revert htext
    cases f <;> cases f' <;> decide
  subst hformat
  exact ⟨rfl, List.append_cancel_left h⟩

/-- Only volumes have a letter in the text of their sizes. -/
theorem notMem_sizeText (s : TextureSpec) : 'd' ∉ s.sizeText := by
  have hint : ∀ z : Int, 'd' ∉ (toString z).toList := fun z hz => (ne_of_mem_toString_int hz).2 rfl
  have htail : 'd' ∉ if s.volume then 'x' :: (toString s.depth).toList else [] := by
    split
    · exact List.not_mem_cons_of_ne_of_not_mem (by decide) (hint _)
    · exact List.not_mem_nil
  refine List.not_mem_cons_of_ne_of_not_mem (by decide) ?_
  rw [List.mem_append, List.mem_cons, List.mem_append]
  rintro (h | h | h | h)
  · exact hint _ h
  · cases h
  · exact hint _ h
  · exact htail h

/-- Sizes are told by their text. -/
theorem eq_of_sizeText (hvolume : s.volume = t.volume) (h : s.sizeText = t.sizeText) :
    s.width = t.width ∧ s.height = t.height ∧ (s.volume = true → s.depth = t.depth) := by
  have hx : ∀ r : List Char, ∀ c ∈ ('x' :: r).head?, c.isDigit = false := by
    intro r c hc
    obtain rfl : 'x' = c := by simpa using hc
    decide
  obtain ⟨hwidth, h⟩ := int_append_inj (hx _) (hx _) (List.cons.inj h).2
  have htail : ∀ (b : Bool) (cs : List Char), ∀ c ∈ (if b then 'x' :: cs else []).head?,
      c.isDigit = false := by
    intro b cs c hc
    cases b with
    | true => exact hx cs c hc
    | false => cases hc
  obtain ⟨hheight, h⟩ := int_append_inj (htail _ _) (htail _ _) (List.cons.inj h).2
  refine ⟨hwidth, hheight, fun hv => ?_⟩
  rw [if_pos hv, if_pos (hvolume ▸ hv)] at h
  have hdepth : (toString s.depth).toList ++ [] = (toString t.depth).toList ++ [] := by
    rw [(List.cons.inj h).2]
  exact (int_append_inj (by simp) (by simp) hdepth).1

/-- Keys are equal if and only if the textures have the same format and dimension, and both
follow the viewport or both have the same sizes. -/
theorem key_eq_iff :
    s.key = t.key ↔ s.format = t.format ∧ s.volume = t.volume ∧
      (s.follows = true ∧ t.follows = true ∨ s.follows = false ∧ t.follows = false ∧
        s.width = t.width ∧ s.height = t.height ∧ (s.volume = true → s.depth = t.depth)) := by
  constructor
  · intro h
    have hlist := congrArg String.toList h
    rw [toList_key, toList_key] at hlist
    have hhead : ∀ s : TextureSpec, (if s.volume then ['-', '3', 'd'] else []) ++
        (if s.follows then [] else s.sizeText) = [] ∨
        ((if s.volume then ['-', '3', 'd'] else []) ++ if s.follows then [] else s.sizeText).head? =
            some '-' := by
      intro s
      cases s.volume <;> cases s.follows <;> simp [sizeText]
    obtain ⟨hformat, hrest⟩ := format_append_inj (hhead s) (hhead t) hlist
    -- a `d` is there if and only if the texture is a volume
    have hd : ∀ s : TextureSpec, 'd' ∈ (if s.volume then ['-', '3', 'd'] else []) ++
        (if s.follows then [] else s.sizeText) ↔ s.volume = true := by
      intro s
      have := s.notMem_sizeText
      cases s.volume <;> cases s.follows <;> simp [this]
    have hvolume : s.volume = t.volume := by
      rw [Bool.eq_iff_iff, ← hd s, ← hd t, hrest]
    rw [hvolume] at hrest
    have hsizes := List.append_cancel_left hrest
    refine ⟨hformat, hvolume, ?_⟩
    cases hs : s.follows <;> cases ht : t.follows <;> simp only [hs, ht] at hsizes
    · exact .inr ⟨rfl, rfl, eq_of_sizeText hvolume (by simpa using hsizes)⟩
    · simp [sizeText] at hsizes
    · simp [sizeText] at hsizes
    · exact .inl ⟨rfl, rfl⟩
  · rintro ⟨hformat, hvolume, hsizes⟩
    rw [← String.toList_inj, toList_key, toList_key, hformat, hvolume]
    rcases hsizes with ⟨hs, ht⟩ | ⟨hs, ht, hwidth, hheight, hdepth⟩
    · rw [if_pos hs, if_pos ht]
    · rw [hs, ht]
      have hsize : s.sizeText = t.sizeText := by
        unfold sizeText
        rw [hwidth, hheight, hvolume]
        cases hv : t.volume with
        | false => rfl
        | true => rw [hdepth (hvolume.trans hv)]
      rw [hsize]

/-! ## storage -/

/-- What a texture takes up in a viewport of a size; only volumes have a depth. -/
structure Storage where
  format : TextureFormat
  volume : Bool
  width : Int
  height : Int
  depth : Int
  deriving DecidableEq, Repr

/-- What the texture takes up once its sizes are resolved. -/
def storage (s : TextureSpec) (w h : Int) : Storage where
  format := (s.sized w h).format
  volume := (s.sized w h).volume
  width := (s.sized w h).width
  height := (s.sized w h).height
  depth := if s.volume then (s.sized w h).depth else 1

/-- The texture fixes its width and not its height, or its height and not its width. -/
def FixesOne (s : TextureSpec) : Prop := ¬ (s.width = 0 ↔ s.height = 0)

/-- A volume has a size of its own. -/
def Anchored (s : TextureSpec) : Prop := s.volume = true → s.follows = false

/-- How far two textures agree that are given one slot. -/
structure SameClass (s t : TextureSpec) : Prop where
  format : s.format = t.format
  volume : s.volume = t.volume
  /-- Volumes take up the same in every viewport. -/
  volumes : s.volume = true → ∀ w h, s.storage w h = t.storage w h
  /-- So do all textures, unless one of the two fixes one size only. -/
  whole : ¬ s.FixesOne → ¬ t.FixesOne → ∀ w h, s.storage w h = t.storage w h
  /-- In any case they do when they declare the same width and height, and only then. -/
  exact : (∀ w h, 0 < w → 0 < h → s.storage w h = t.storage w h) ↔ s.width = t.width ∧
    s.height = t.height

/-- A size that is resolved the same in every viewport is the same size. -/
theorem eq_of_resolved {a b : Int}
    (h : ∀ w : Int, 0 < w → (if a = 0 then w else a) = if b = 0 then w else b) :
    a = b := by
  -- a viewport that is greater than both sizes
  have hlarge := h (a.natAbs + b.natAbs + 1) (by omega)
  split at hlarge <;> split at hlarge <;> omega

theorem storage_eq (hformat : s.format = t.format) (hvolume : s.volume = t.volume)
    (hwidth : s.width = t.width) (hheight : s.height = t.height)
    (hdepth : s.volume = true → s.depth = t.depth) (w h : Int) :
    s.storage w h = t.storage w h := by
  unfold storage sized
  rw [Storage.mk.injEq]
  refine ⟨hformat, hvolume, by simp only [hwidth], by simp only [hheight], ?_⟩
  rw [hvolume]
  cases hv : t.volume with
  | false => rfl
  | true => simp only [hdepth (hvolume.trans hv)]

/-- Whether a volume has a size of its own can be told from the key. -/
theorem Anchored.of_key_eq (ht : t.Anchored) (h : s.key = t.key) : s.Anchored := by
  obtain ⟨-, hvolume, hsizes⟩ := key_eq_iff.1 h
  intro hv
  rcases hsizes with ⟨-, hfollows⟩ | ⟨hfixed, -⟩
  · rw [ht (hvolume ▸ hv)] at hfollows
    cases hfollows
  · exact hfixed

/-- Textures with equal keys agree but for the one size that a texture fixes. -/
theorem sameClass_of_key_eq (hs : s.Anchored) (h : s.key = t.key) : s.SameClass t := by
  obtain ⟨hformat, hvolume, hsizes⟩ := key_eq_iff.1 h
  have hdepth : s.volume = true → s.depth = t.depth := by
    intro hv
    rcases hsizes with ⟨hfollows, -⟩ | ⟨-, -, -, -, hdepth⟩
    · rw [hs hv] at hfollows
      cases hfollows
    · exact hdepth hv
  have hsame : s.width = t.width → s.height = t.height → ∀ w h, s.storage w h = t.storage w h :=
    fun hwidth hheight => storage_eq hformat hvolume hwidth hheight hdepth
  refine ⟨hformat, hvolume, fun hv => ?_, fun hone hone' => ?_, fun hall => ?_,
      fun ⟨hw, hh⟩ w h _ _ =>
    hsame hw hh w h⟩
  · rcases hsizes with ⟨hfollows, -⟩ | ⟨-, -, hwidth, hheight, -⟩
    · rw [hs hv] at hfollows
      cases hfollows
    · exact hsame hwidth hheight
  · rcases hsizes with ⟨hfollows, hfollows'⟩ | ⟨-, -, hwidth, hheight, -⟩
    · simp only [follows, Bool.or_eq_true, decide_eq_true_eq] at hfollows hfollows'
      simp only [FixesOne, not_not] at hone hone'
      exact hsame (by omega) (by omega)
    · exact hsame hwidth hheight
  · refine ⟨eq_of_resolved fun w hw => ?_, eq_of_resolved fun h hh => ?_⟩
    · exact congrArg Storage.width (hall w 1 hw (by decide))
    · exact congrArg Storage.height (hall 1 h (by decide) hh)

end TextureSpec

end EffectChain
