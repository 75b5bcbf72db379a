import EffectChain.Fuzzy.Match
import EffectChain.Live.Prompt
import EffectChain.Proofs.Live.Keys
import EffectChain.Proofs.Text.Utf8
import Mathlib.Data.List.GetD

/-!
# EffectChain.Proofs.Live.WordRange

The word that a completion takes the place of, and the line it is in.

Sorting candidates by blocks rearranges them, whatever the comparison says
(`Fuzzy.blockSort_perm`), so that what is found among them is one of them (`Fuzzy.mem_find`).

The word at the cursor of a line is in the line, and starts between characters
(`Span.wordAt_fits`, `Span.exists_wordAt_start`).  An empty word at the very start of the line has
no completions, and no word there is completed to the empty name (`Prompt.complete_named`).

The prompt keeps the word and its completions from one key to the next.  Most keys find
them anew (`press_finds`), and a word that was just found is in the line (`refresh_found`).
A step goes on with the word that it has put into the line (`replaceWord_fits_iff`).

* `word_in_line_iff` — for every run of keys, which keys leave the word in the line.
-/

namespace EffectChain.Fuzzy

variable {α : Type} (less : α → α → Bool)

/-- Sinking an element keeps the elements. -/
theorem sink_perm (x : α) (ys : List α) : (sink less x ys).Perm (x :: ys) := by
  induction ys with
  | nil => exact .refl [x]
  | cons y ys ih =>
      rw [sink]
      split
      · exact (ih.cons y).trans (.swap x y ys)
      · exact .refl _

theorem insertionSort_perm (l : List α) : (insertionSort less l).Perm l := by
  have hfold : ∀ (l acc : List α),
      (l.foldl (fun acc x => sink less x acc) acc).Perm (l ++ acc) := by
    intro l
    induction l with
    | nil => exact fun acc => .refl acc
    | cons x l ih =>
        intro acc
        exact (ih _).trans (((sink_perm less x acc).append_left l).trans List.perm_middle)
  exact (List.reverse_perm _).trans ((hfold l []).trans (by rw [List.append_nil]))

/-- Bisection stays between its ends. -/
theorem bisect_bounds (p : Nat → Bool) {i j : Nat} (h : i ≤ j) :
    i ≤ bisect p i j ∧ bisect p i j ≤ j := by
  fun_induction bisect p i j with
  | case1 i j hlt m hp ih =>
      obtain ⟨hlow, hhigh⟩ := ih (by omega)
      exact ⟨by omega, hhigh⟩
  | case2 i j hlt m hp ih =>
      obtain ⟨hlow, hhigh⟩ := ih (by omega)
      exact ⟨hlow, by omega⟩
  | case3 i j hlt => exact ⟨Nat.le_refl i, h⟩

/-- A list in four stretches. -/
theorem four_stretches (l : List α) {a m b : Nat} (ha : a ≤ m) (hm : m ≤ b) :
    l.take a ++ ((l.take m).drop a ++ ((l.take b).drop m ++ l.drop b)) = l := by
  have hsplit : ∀ (i j : Nat), i ≤ j → l.take i ++ (l.take j).drop i = l.take j := by
    intro i j hij
    have h := List.take_append_drop i (l.take j)
    rwa [List.take_take, Nat.min_eq_left hij] at h
  rw [← List.append_assoc, hsplit a m ha, ← List.append_assoc, hsplit m b hm, List.take_append_drop]

/-- Rotating keeps the elements. -/
theorem rotate_perm (l : List α) {a m b : Nat} (ha : a ≤ m) (hm : m ≤ b) :
    (rotate l a m b).Perm l := by
  have h : (rotate l a m b).Perm
      (l.take a ++ ((l.take m).drop a ++ ((l.take b).drop m ++ l.drop b))) := by
    refine List.Perm.append_left _ ?_
    rw [← List.append_assoc, ← List.append_assoc]
    exact List.perm_append_comm.append_right _
  rwa [four_stretches l ha hm] at h

theorem turn_perm (l : List α) (a m b : Nat) : (turn l a m b).Perm l := by
  unfold turn
  split
  · next h => exact rotate_perm l (by omega) (by omega)
  · exact .refl l

/-- Merging in place keeps the elements. -/
theorem symMerge_perm (l : List α) (m : Nat) : (symMerge less l m).Perm l := by
  fun_induction symMerge less l m with
  | case1 l m n h => exact .refl l
  | case2 l n i h =>
      have hi : 1 ≤ i := (bisect_bounds _ (show 1 ≤ n by omega)).1
      exact rotate_perm l (Nat.zero_le 1) hi
  | case3 l m n h hm hlast i =>
      have hi : i ≤ m := (bisect_bounds _ (Nat.zero_le m)).2
      have hrotated := rotate_perm l hi (show m ≤ n by omega)
      rwa [rotate, List.take_length, List.drop_length, List.append_nil] at hrotated
  | case4 l m n h hm hlast mid k from' upto start stop left right ih₁ ih₂ =>
      have hhalves : (left ++ right).Perm l := by
        rw [List.take_append_drop]
        exact turn_perm l start m stop
      refine List.Perm.trans (List.Perm.append ?_ ?_) hhalves
      · split
        · exact ih₁
        · exact .refl left
      · split
        · exact ih₂
        · exact .refl right

/-- A pass of merges keeps the elements. -/
theorem mergePass_perm (size : Nat) (l : List α) : (mergePass less size l).Perm l := by
  fun_induction mergePass less size l with
  | case1 l h => exact .refl l
  | case2 l h ih =>
      have hmerged := (symMerge_perm less (l.take (2 * size)) size).append ih
      rwa [List.take_append_drop] at hmerged

theorem mergeAll_perm (size : Nat) (l : List α) : (mergeAll less size l).Perm l := by
  fun_induction mergeAll less size l with
  | case1 size l h => exact .refl l
  | case2 size l h merged hlength ih => exact ih.trans (mergePass_perm less size l)
  | case3 size l h merged hlength => exact mergePass_perm less size l

/-- Sorting blocks keeps the elements. -/
theorem sortBlocks_perm (size : Nat) (l : List α) : (sortBlocks less size l).Perm l := by
  fun_induction sortBlocks less size l with
  | case1 l h => exact insertionSort_perm less l
  | case2 l h ih =>
      have hsorted := (insertionSort_perm less (l.take size)).append ih
      rwa [List.take_append_drop] at hsorted

/-- Sorting by blocks rearranges a list. -/
theorem blockSort_perm (l : List α) : (blockSort less l).Perm l :=
  (mergeAll_perm less 20 _).trans (sortBlocks_perm less 20 l)

/-- The empty name matches no pattern. -/
theorem score?_empty {pattern : List Char} (h : pattern ≠ []) : score? pattern "" = none := by
  have hlength : pattern.length ≠ 0 := by simpa using h
  simp [score?, walk, hlength.symm]

/-- What is found is a candidate that matches. -/
theorem mem_find {pattern : String} {candidates : List String} {m : Match}
    (h : m ∈ find pattern candidates) :
    m.text ∈ candidates ∧ (score? pattern.toList m.text).isSome := by
  unfold find at h
  split at h
  · simp at h
  · obtain ⟨c, hc, hm⟩ := List.mem_filterMap.1 ((blockSort_perm _ _).mem_iff.1 h)
    obtain ⟨score, hscore, rfl⟩ := Option.map_eq_some_iff.1 hm
    exact ⟨(List.mem_zipIdx hc).2.2 ▸ List.getElem_mem _, by simp [hscore]⟩

end EffectChain.Fuzzy

namespace EffectChain

/-! ## words -/

/-- The span is a part of the line. -/
structure Span.Fits (s : Span) (line : Bytes) : Prop where
  ordered : s.start ≤ s.stop
  inside : s.stop ≤ line.length

/-- The span of a word lies within its line. -/
theorem Span.wordAt_fits (line : Bytes) (offset : Nat) : (Span.wordAt line offset).Fits line := by
  have hafter :=
    (List.takeWhile_prefix (fun b => !isWordEnd b)
      (l := line.drop (min offset line.length))).length_le
  rw [List.length_drop] at hafter
  constructor
  · simp only [wordAt]
    omega
  · simp only [wordAt]
    omega

/-- What ends a word is one byte. -/
theorem lt_of_isWordEnd {b : UInt8} (h : isWordEnd b = true) : b.toNat < 0x80 := by
  have hascii : (".() \t[]+-*/%<>=!&|,?:;#".toList.all fun c => (Bytes.ofChar c).toNat < 0x80) =
    true := by decide
  simp only [isWordEnd, Bool.or_eq_true, decide_eq_true_eq] at h
  rcases h with (h | rfl) | rfl
  · obtain ⟨c, hc, heq⟩ := List.any_eq_true.1 h
    obtain rfl := of_decide_eq_true heq
    exact of_decide_eq_true (List.all_eq_true.1 hascii c hc)
  · decide
  · decide

/-- A word starts between characters. -/
theorem Span.exists_wordAt_start (cs : List Char) (offset : Nat) :
    ∃ pre post, cs = pre ++ post ∧ (Span.wordAt (Utf8.encode cs) offset).start =
      (Utf8.encode pre).length := by
  generalize hline : Utf8.encode cs = line
  have hsplit := List.takeWhile_append_dropWhile (p := fun b => !isWordEnd b)
    (l := (line.take (min offset line.length)).reverse)
  have hstart : (Span.wordAt line offset).start =
      ((line.take (min offset line.length)).reverse.dropWhile fun b => !isWordEnd b).length := by
    have hlength := congrArg List.length hsplit
    rw [List.length_append, List.length_reverse, List.length_take] at hlength
    simp only [wordAt]
    omega
  rw [hstart]
  cases hrest : (line.take (min offset line.length)).reverse.dropWhile fun b => !isWordEnd b with
  | nil => exact ⟨[], cs, rfl, rfl⟩
  | cons b rest =>
      -- the byte before the word ends a word, and is a character of its own
      have hend : isWordEnd b = true := by
        have hhead :=
          List.head?_dropWhile_not (fun b => !isWordEnd b)
            (line.take (min offset line.length)).reverse
        rw [hrest] at hhead
        simpa using hhead
      rw [hrest] at hsplit
      have hhead := congrArg List.reverse hsplit
      rw [List.reverse_reverse, List.reverse_append, List.reverse_cons, List.append_assoc] at hhead
      have hcut := List.take_append_drop (min offset line.length) line
      rw [← hhead, List.append_assoc] at hcut
      obtain ⟨pre, post, rfl, hpre⟩ :=
        Utf8.exists_of_encode_eq (lt_of_isWordEnd hend) (hline.trans hcut.symm)
      refine ⟨pre, post, rfl, ?_⟩
      rw [hpre]
      simp

theorem Span.of_eq_nil {s : Span} (h : s.stop ≤ s.start) (line : Bytes) : s.of line = [] := by
  refine List.drop_eq_nil_of_le ?_
  rw [List.length_take]
  omega

/-! ## completions -/

/-- Nothing completes an empty word that stands alone, and nothing is completed to the empty
name. -/
theorem Completion.select_free {word : String} {names : List String}
    (h : select .free word names ≠ []) :
    word ≠ "" ∧ "" ∉ select .free word names := by
  have hword : word ≠ "" := by
    rintro rfl
    exact h rfl
  refine ⟨hword, fun hmem => ?_⟩
  rw [select, if_pos hword] at hmem
  obtain ⟨m, hm, htext⟩ := List.mem_map.1 hmem
  have hsome := (Fuzzy.mem_find hm).2
  rw [htext, Fuzzy.score?_empty (by simpa using hword)] at hsome
  exact absurd hsome (by simp)

namespace Prompt

/-- A word that has completions is not at the very start of the line and empty, nor is it
made empty there. -/
theorem complete_named (p : Prompt) {span : Span} {names : List String}
    (h : p.complete = (span, names)) (hsome : names ≠ []) :
    0 < span.stop ∧ (span.start = 0 → "" ∉ names) := by
  obtain ⟨rfl, rfl⟩ := Prod.mk.inj h
  generalize hspan : Span.wordAt p.field.bytes p.field.cursor = span at *
  have hfits := Span.wordAt_fits p.field.bytes p.field.cursor
  rw [hspan] at hfits
  have hstop : Bytes.toString (span.of p.field.bytes) ≠ "" → 0 < span.stop := by
    intro hword
    by_contra hzero
    refine hword ?_
    rw [Span.of_eq_nil (by omega), Bytes.toString, Utf8.decode, Utf8.glyphs_nil]
    rfl
  cases hmode : p.mode with
  | command =>
      simp only [hmode] at hsome ⊢
      split at hsome
      · exact absurd rfl hsome
      · next hfirst =>
          obtain ⟨hword, hnames⟩ := Completion.select_free hsome
          rw [if_neg hfirst]
          exact ⟨hstop hword, fun _ => hnames⟩
  | statement =>
      simp only [hmode] at hsome ⊢
      by_cases hstart : span.start = 0
      · -- nothing stands before the word
        have hfree : WordContext.after (p.field.bytes.take span.start) = .free := by
          rw [hstart, List.take_zero]
          rfl
        rw [hfree] at hsome ⊢
        obtain ⟨hword, hnames⟩ := Completion.select_free hsome
        exact ⟨hstop hword, fun _ => hnames⟩
      · have hordered := hfits.ordered
        exact ⟨by omega, fun hzero => absurd hzero hstart⟩

end Prompt

namespace Prompt

variable {p q r : Prompt}

/-- What a step takes the place of is in the line. -/
def Sound (p : Prompt) : Prop := p.completions = [] ∨ p.word.Fits p.field.bytes

/-- A word with completions starts between characters, if it is in the line at all, and is
not at the very start of the line and empty. -/
structure Placed (p : Prompt) : Prop where
  named : p.completions ≠ [] → 0 < p.word.stop ∧ (p.word.start = 0 → "" ∉ p.completions)
  start : p.completions ≠ [] → p.word.Fits p.field.bytes →
    ∃ pre post, p.field.chars = pre ++ post ∧ p.word.start = (Utf8.encode pre).length

theorem placed_of_nil (h : p.completions = []) : p.Placed :=
  ⟨fun hsome => absurd h hsome, fun hsome => absurd h hsome⟩

/-- A word that was just found is in the line. -/
theorem refresh_fits (p : Prompt) : p.refresh.word.Fits p.refresh.field.bytes :=
  Span.wordAt_fits p.field.bytes p.field.cursor

theorem refresh_found (p : Prompt) : p.refresh.Placed ∧ p.refresh.Sound :=
  ⟨⟨p.complete_named rfl, fun _ _ => Span.exists_wordAt_start p.field.chars p.field.cursor⟩,
    .inr p.refresh_fits⟩

/-- Completions that are looked for while typing are placed and sound. -/
theorem refreshTyped_found (p : Prompt) : p.refreshTyped.Placed ∧ p.refreshTyped.Sound := by
  unfold refreshTyped
  dsimp only
  split
  · split
    · exact ⟨placed_of_nil rfl, .inl rfl⟩
    · exact p.refresh_found
  · exact p.refresh_found

/-- The line is the same, with its word and its completions. -/
structure SameLine (p q : Prompt) : Prop where
  field : q.field = p.field
  word : q.word = p.word
  completions : q.completions = p.completions

theorem SameLine.sound (h : SameLine p q) : q.Sound ↔ p.Sound := by
  rw [Sound, Sound, h.field, h.word, h.completions]

/-- On the same line completions stay placed. -/
theorem SameLine.placed (h : SameLine p q) (hp : p.Placed) : q.Placed := by
  constructor
  · rw [h.word, h.completions]
    exact hp.named
  · rw [h.field, h.word, h.completions]
    exact hp.start

/-- The word was found anew, or the line is the same. -/
def Finds (p q : Prompt) : Prop := (q.Placed ∧ q.Sound) ∨ SameLine p q

theorem Finds.refl (p : Prompt) : Finds p p := .inr ⟨rfl, rfl, rfl⟩

/-- Finding is passed on from step to step. -/
theorem Finds.trans (h : Finds p q) (h' : Finds q r) : Finds p r := by
  rcases h' with hr | hr
  · exact .inl hr
  · rcases h with hq | hq
    · exact .inl ⟨hr.placed hq.1, hr.sound.2 hq.2⟩
    · exact .inr ⟨hr.field.trans hq.field, hr.word.trans hq.word,
        hr.completions.trans hq.completions⟩

theorem Finds.of_same (h : Finds q r) (hsame : SameLine p q) : Finds p r :=
  Finds.trans (.inr hsame) h

/-! ## the keys that apply no completion and submit nothing -/

/-- Switching the mode finds the completions anew or keeps the line. -/
theorem switchTo_finds (p : Prompt) (mode : Mode) : Finds p (p.switchTo mode) := by
  unfold switchTo
  split
  · exact .refl p
  · exact .inl (refresh_found _)

/-- Showing an entry finds the completions anew or keeps the line. -/
theorem showEntry_finds (p : Prompt) (i : Nat) (follow : Bool) :
    Finds p (p.showEntry i follow) := by
  unfold showEntry
  split
  · exact .refl p
  · exact .inl (refresh_found _)

/-- A walk through the history finds the completions anew or keeps the line. -/
theorem browse_finds (p : Prompt) (forward follow : Bool) (keep : HistoryEntry → Bool) :
    Finds p (p.browse forward follow keep) := by
  unfold browse
  split
  · exact p.showEntry_finds _ follow
  · split
    · exact .inl (refresh_found _)
    · exact .refl p

/-- A walk through the commands finds the completions anew or keeps the line. -/
theorem browseCommands_finds (p : Prompt) (forward : Bool) :
    Finds p (p.browseCommands forward) := by
  unfold browseCommands
  dsimp only
  have hcommands : Finds p (if p.walk.isSome then p else
      { p with walk := some ((p.walk.getD (p.mode, p.field)).1,
                 (p.walk.getD (p.mode, p.field)).2) }.switchTo
        .command) := by
    split
    · exact .refl p
    · exact (switchTo_finds _ .command).of_same ⟨rfl, rfl, rfl⟩
  split
  · exact hcommands.trans (showEntry_finds _ _ false)
  · exact .inl (refresh_found _)

/-- Every key that neither steps nor submits finds the completions anew or keeps the line. -/
theorem press_finds {k : Key} (hsteps : k ≠ .tab ∧ k ≠ .backTab) (hsubmits : ¬ p.Submits k) :
    Finds p (p.press k).1 := by
  cases k with
  | char c => exact .inl (refreshTyped_found _)
  | enter =>
      rcases press_enter hsubmits with hconfirm | hblank
      · rw [hconfirm]
        exact .inl (refreshTyped_found _)
      · rw [hblank]
        exact .inr ⟨rfl, rfl, rfl⟩
  | tab => exact absurd rfl hsteps.1
  | backTab => exact absurd rfl hsteps.2
  | escape =>
      show Finds p p.escape
      unfold escape
      split
      · exact .inl (refresh_found _)
      · exact (switchTo_finds _ _).of_same ⟨rfl, rfl, rfl⟩
  | interrupt =>
      show Finds p p.interrupt.1
      unfold interrupt
      split
      · exact .inr ⟨rfl, rfl, rfl⟩
      · exact .inl (refresh_found _)
  | endOfInput =>
      simp only [press]
      split <;> exact .inr ⟨rfl, rfl, rfl⟩
  | up => exact p.browse_finds ..
  | down => exact p.browse_finds ..
  | upInMode => exact p.browse_finds ..
  | downInMode => exact p.browse_finds ..
  | upCommands => exact p.browseCommands_finds _
  | downCommands => exact p.browseCommands_finds _
  | backspace => exact .inl (refresh_found _)
  | delete => exact .inl (refresh_found _)
  | left => exact .inl (refresh_found _)
  | right => exact .inl (refresh_found _)
  | home => exact .inl (refresh_found _)
  | toEnd => exact .inl (refresh_found _)

/-! ## completions that are applied -/

/-- A step without a choice: there is nothing to apply, or one completion is settled. -/
theorem step_single (h : p.completions.length ≤ 1) (forward : Bool) :
    (p.step forward).completions = [] := by
  unfold step
  split
  · next hnone => exact hnone
  · rfl
  · next hnil hone =>
      cases hnames : p.completions with
      | nil => exact absurd hnames hnil
      | cons name names =>
          cases names with
          | nil => exact absurd hnames (hone name)
          | cons other names => simp [hnames] at h

/-- A step with a choice applies one of the completions, and remembers which. -/
theorem step_choice (h : 1 < p.completions.length) (forward : Bool) :
    ∃ (i : Nat) (hi : i < p.completions.length) (before : TextField),
      (before = p.field ∨ ∃ c, p.cycle = some c ∧ before = c.before) ∧
        p.step forward = { p with cycle := some { before, index := i } }.replaceWord
          p.completions[i] := by
  unfold step
  split
  · next hnone => simp [hnone] at h
  · next hone => simp [hone] at h
  · dsimp only
    cases p.cycle with
    | none =>
        dsimp only
        have hi : (if forward = true then 0 else p.completions.length - 1) <
            p.completions.length := by
          split <;> omega
        refine ⟨_, hi, p.field, .inl rfl, ?_⟩
        rw [List.getD_eq_getElem _ _ hi]
    | some c =>
        dsimp only
        have hi : (if forward = true then c.index + 1 else c.index + p.completions.length - 1) %
            p.completions.length < p.completions.length := Nat.mod_lt _ (by omega)
        refine ⟨_, hi, c.before, .inr ⟨c, rfl, rfl⟩, ?_⟩
        rw [List.getD_eq_getElem _ _ hi]

/-- A completion is put between what stands before the word and what stands behind it, and
the field takes what it can. -/
theorem replaceWord_chars {pre post : List Char} (hfield : p.field.chars = pre ++ post)
    (hstart : p.word.start = (Utf8.encode pre).length) (name : String) :
    (p.replaceWord name).field.chars = (TextField.clean (pre ++ (name.toList ++
      Utf8.decode (p.field.bytes.drop p.word.stop)))).take TextField.limit := by
  have hline : p.field.bytes = Utf8.encode pre ++ Utf8.encode post := by
    rw [TextField.bytes, hfield, Utf8.encode_append]
  have hhead : p.field.bytes.take p.word.start = Utf8.encode pre := by
    rw [hline, hstart, List.take_left]
  show (TextField.clean (Utf8.decode (p.word.replace p.field.bytes (Bytes.ofString name)))).take
    TextField.limit = _
  rw [Span.replace, hhead, List.append_assoc, Utf8.decode_encode_append, Bytes.ofString,
    Utf8.decode_encode_append]

/-- What stood before the word stands there still. -/
theorem exists_replaceWord_start (hproper : p.field.Proper) {pre post : List Char}
    (hfield : p.field.chars = pre ++ post) (hstart : p.word.start = (Utf8.encode pre).length)
    (name : String) :
    ∃ post', (p.replaceWord name).field.chars = pre ++ post' := by
  have htakes : TextField.clean pre = pre := TextField.clean_eq_self_iff.2 fun c hc =>
    hproper.takes c (by rw [hfield]; exact List.mem_append_left post hc)
  have hshort : pre.length ≤ TextField.limit := by
    have hall := hproper.short
    rw [hfield, List.length_append] at hall
    omega
  rw [replaceWord_chars hfield hstart, TextField.clean_append, htakes, List.take_append,
    List.take_of_length_le hshort]
  exact ⟨_, rfl⟩

/-- A completion that the field takes as it is is whole in the line if and only if it ends
within the limit. -/
theorem replaceWord_fits_iff (hproper : p.field.Proper) {pre post : List Char}
    (hfield : p.field.chars = pre ++ post) (hstart : p.word.start = (Utf8.encode pre).length)
    {name : String} (hname : TextField.clean name.toList = name.toList) :
    (p.replaceWord name).word.Fits (p.replaceWord name).field.bytes ↔
      pre.length + name.length ≤ TextField.limit := by
  have hchars := replaceWord_chars hfield hstart name
  have htext : TextField.clean (pre ++ name.toList) = pre ++ name.toList := by
    rw [TextField.clean_append, hname, TextField.clean_eq_self_iff.2]
    exact fun c hc => hproper.takes c (by rw [hfield]; exact List.mem_append_left post hc)
  rw [← List.append_assoc, TextField.clean_append, htext, List.take_append] at hchars
  have hstop : (p.replaceWord name).word.stop = (Utf8.encode (pre ++ name.toList)).length := by
    rw [Utf8.encode_append, List.length_append, ← hstart]
    rfl
  have hlength : (pre ++ name.toList).length = pre.length + name.length := by
    rw [List.length_append, String.length_toList]
  generalize pre ++ name.toList = text at *
  constructor
  · intro hfits
    by_contra hlong
    -- the line ends within the completion
    rw [Nat.sub_eq_zero_of_le (by omega), List.take_zero, List.append_nil] at hchars
    have hinside := hfits.inside
    have hsplit : (Utf8.encode text).length = (Utf8.encode (text.take TextField.limit)).length +
        (Utf8.encode (text.drop TextField.limit)).length := by
      rw [← List.length_append, ← Utf8.encode_append, List.take_append_drop]
    have hlost := Utf8.length_le_length_encode (text.drop TextField.limit)
    rw [List.length_drop] at hlost
    rw [TextField.bytes, hchars, hstop] at hinside
    omega
  · intro hshort
    rw [List.take_of_length_le (by omega)] at hchars
    constructor
    · exact Nat.le_add_right p.word.start _
    · rw [TextField.bytes, hchars, hstop, Utf8.encode_append, List.length_append]
      exact Nat.le_add_right ..

/-! ## a run of keys -/

/-- A step leaves a word that starts between characters as it is. -/
theorem Placed.step (h : p.Placed) (hproper : p.field.Proper) (hsound : p.Sound) (forward : Bool) :
    (p.step forward).Placed := by
  rcases Nat.lt_or_ge 1 p.completions.length with hmany | hfew
  · obtain ⟨i, hi, before, -, hstep⟩ := step_choice hmany forward
    have hsome : p.completions ≠ [] := List.ne_nil_of_length_pos (by omega)
    obtain ⟨-, hnamed⟩ := h.named hsome
    obtain ⟨pre, post, hfield, hstart⟩ := h.start hsome (hsound.resolve_left hsome)
    rw [hstep]
    refine ⟨fun _ => ⟨?_, hnamed⟩, fun _ _ => ?_⟩
    · show 0 < p.word.start + (Bytes.ofString p.completions[i]).length
      by_cases hzero : p.word.start = 0
      · have hname : p.completions[i] ≠ "" :=
          fun hempty => hnamed hzero (hempty ▸ List.getElem_mem hi)
        have hlength := Utf8.length_le_length_encode p.completions[i].toList
        have hpos : 0 < p.completions[i].toList.length :=
          List.length_pos_iff.2 (by simpa using hname)
        rw [Bytes.ofString]
        omega
      · omega
    · obtain ⟨post', hpost⟩ := exists_replaceWord_start hproper hfield hstart p.completions[i]
      exact ⟨pre, post', hpost, hstart⟩
  · exact placed_of_nil (step_single hfew forward)

/-- The prompts that keys lead to.  A step whose word is not in the line ends the program, so
that no prompt comes after it. -/
inductive Reached : Prompt → Prop
  | fresh {p : Prompt} (hfield : p.field = {}) (hkept : p.kept = {}) (hword : p.word = {})
      (hcompletions : p.completions = []) (hcycle : p.cycle = none) (hwalk : p.walk = none) :
        Reached p
  | press {p : Prompt} (h : Reached p) (k : Key) (hk : k = .tab ∨ k = .backTab → p.Sound) : Reached
      (p.press k).1
  | takeEdit {p : Prompt} (h : Reached p) (outcome : EditOutcome) : Reached (p.takeEdit outcome).1
  | resize {p : Prompt} (h : Reached p) (width : Int) : Reached { p with width }

theorem Reached.type (h : p.Reached) (c : Char) : (p.type c).Reached := h.press (.char c) (by simp)

theorem Reached.types (h : p.Reached) (cs : List Char) : (cs.foldl Prompt.type p).Reached := by
  induction cs generalizing p with
  | nil => exact h
  | cons c cs ih => exact ih (h.type c)

/-- Every prompt that is reached is tended. -/
theorem Reached.tended (h : p.Reached) : p.Tended := by
  induction h with
  | fresh hfield hkept hword hcompletions hcycle hwalk =>
      exact ⟨hfield ▸ TextField.proper_empty, hkept ▸ TextField.proper_empty, by simp [hcycle],
        by simp [hwalk]⟩
  | press _ k _ ih => exact ih.press k
  | takeEdit _ outcome ih => exact ih.onlySession (takeEdit_onlySession _ outcome)
  | resize _ width ih => exact ⟨ih.field, ih.kept, ih.cycle, ih.walk⟩

theorem OnlySession.sameLine (h : OnlySession p q) : SameLine p q := by
  obtain ⟨session, files, ended, rfl⟩ := h
  exact ⟨rfl, rfl, rfl⟩

/-- Every prompt on the way has its word placed. -/
theorem Reached.placed (h : p.Reached) : p.Placed := by
  induction h with
  | fresh _ _ _ hcompletions _ _ => exact placed_of_nil hcompletions
  | @press p h k hk ih =>
      by_cases hsubmits : p.Submits k
      · obtain ⟨history, position, honly⟩ := press_submits hsubmits
        refine honly.sameLine.placed ⟨ih.named, fun hsome hfits => ?_⟩
        -- the word is not empty, so it is in no empty line
        have hstop := (ih.named hsome).1
        have hinside : p.word.stop ≤ 0 := hfits.inside
        omega
      · by_cases hsteps : k = .tab ∨ k = .backTab
        · have hstep := ih.step h.tended.field (hk hsteps)
          rcases hsteps with rfl | rfl
          · exact hstep true
          · exact hstep false
        · rcases press_finds (not_or.1 hsteps) hsubmits with hfound | hsame
          · exact hfound.1
          · exact hsame.placed ih
  | takeEdit _ outcome ih => exact (takeEdit_onlySession _ outcome).sameLine.placed ih
  | resize _ width ih => exact ⟨ih.named, ih.start⟩

end Prompt

open Prompt in
/-- The word that a step takes the place of is in the line, after every run of keys but for
two of them.  A step applies one of the completions; if there is a choice and the field takes
that completion as it is, then the word is in the line afterwards if and only if it ends within
the limit of the field.  An Enter that keeps a completion does not look at which one it is
that was applied last.  An Enter that submits the line leaves the word and the completions
behind, so that the word is not in the line afterwards, unless there were no completions.
Every other key finds the word anew, in the line, or leaves the line and its word alone. -/
theorem word_in_line_iff {p : Prompt} (h : p.Reached) :
    p.refresh.word.Fits p.refresh.field.bytes ∧
      (∀ forward, p.completions.length ≤ 1 → (p.step forward).Sound) ∧
      (∀ forward, 1 < p.completions.length → p.Sound →
        ∃ (i : Nat) (hi : i < p.completions.length),
          (p.step forward).cycle.map (·.index) = some i ∧ (p.step forward).completions =
            p.completions ∧
          (p.step forward).field = (p.replaceWord p.completions[i]).field ∧
          (TextField.clean p.completions[i].toList = p.completions[i].toList →
            ((p.step forward).Sound ↔
              (Utf8.decode (p.field.bytes.take p.word.start)).length + p.completions[i].length ≤
                TextField.limit))) ∧
      (∀ c index, p.cycle = some c → p.completions ≠ [] →
        ({ p with cycle := some { c with index } } : Prompt).press .enter = p.press .enter) ∧
      (∀ k, p.Submits k → ((p.press k).1.Sound ↔ p.completions = [])) ∧
      ∀ k, k ≠ .tab → k ≠ .backTab → ¬ p.Submits k → (p.press k).1.Sound ∨
      SameLine p (p.press k).1 := by
  refine ⟨p.refresh_fits, fun forward hfew => .inl (step_single hfew forward),
    fun forward hmany hsound => ?_, fun c index hcycle hsome => ?_, fun k hk => ?_,
      fun k htab hback hk => ?_⟩
  · obtain ⟨i, hi, before, -, hstep⟩ := step_choice hmany forward
    have hsome : p.completions ≠ [] := List.ne_nil_of_length_pos (by omega)
    obtain ⟨pre, post, hfield, hstart⟩ := h.placed.start hsome (hsound.resolve_left hsome)
    refine ⟨i, hi, by rw [hstep]; rfl, by rw [hstep]; rfl, by rw [hstep]; rfl, fun hname => ?_⟩
    have hpre : Utf8.decode (p.field.bytes.take p.word.start) = pre := by
      rw [hstart, TextField.bytes, hfield, Utf8.encode_append, List.take_left, Utf8.decode_encode]
    rw [hstep, hpre, ← replaceWord_fits_iff h.tended.field hfield hstart hname]
    exact or_iff_right hsome
  · simp [press, enter, hcycle, hsome]
  · obtain ⟨history, position, honly⟩ := press_submits hk
    rw [honly.sameLine.sound]
    refine or_iff_left_of_imp fun hfits => ?_
    by_contra hsome
    have hstop := (h.placed.named hsome).1
    have hinside : p.word.stop ≤ 0 := hfits.inside
    omega
  · exact (press_finds ⟨htab, hback⟩ hk).imp_left And.right

namespace Prompt

/-- Dots that are typed in command mode. -/
theorem type_dots (n : Nat) {p : Prompt} {k : Nat} (hmode : p.mode = .command)
    (hcycle : p.cycle = none) (hfield : p.field = ⟨List.replicate k '.', k⟩)
    (hlimit : k + n ≤ TextField.limit) :
    ((List.replicate n '.').foldl Prompt.type p).mode = .command ∧
      ((List.replicate n '.').foldl Prompt.type p).cycle = none ∧
      ((List.replicate n '.').foldl Prompt.type p).field = ⟨List.replicate (k + n) '.', k + n⟩ := by
  induction n generalizing p k with
  | zero => exact ⟨hmode, hcycle, hfield⟩
  | succ n ih =>
      have hinsert : p.field.insert '.' = ⟨List.replicate (k + 1) '.', k + 1⟩ := by
        have hnew : (TextField.clean ['.']).take (TextField.limit - k) = ['.'] :=
          List.take_of_length_le (show 1 ≤ TextField.limit - k by omega)
        rw [hfield]
        simp [TextField.insert, hnew, List.replicate_succ']
      obtain ⟨hmode₁, hfield₁, hcycle₁⟩ :=
        refreshTyped_same { p with field := p.field.insert '.', position := p.newest }
      have hrest := ih (p := p.type '.') (k := k + 1) (hmode₁.trans hmode) (hcycle₁ hcycle)
        (hfield₁.trans hinsert) (by omega)
      rw [List.replicate_succ, List.foldl_cons]
      rwa [Nat.add_assoc, Nat.add_comm 1 n] at hrest

end Prompt

/-- Dots up to the limit of the field, typed as a command. -/
def dots : Prompt :=
  (List.replicate 1023 '.').foldl Prompt.type (Prompt.escape { session := default })

theorem dots_reached : dots.Reached := by
  have hfresh : Prompt.Reached { session := default } := .fresh rfl rfl rfl rfl rfl rfl
  have hescaped : (Prompt.escape { session := default }).Reached := hfresh.press .escape (by simp)
  exact hescaped.types _

theorem dots_line :
    dots.mode = .command ∧ dots.cycle = none ∧ dots.field = ⟨List.replicate 1023 '.', 1023⟩ := by
  have hescaped : (Prompt.escape { session := default }).mode = .command ∧
      (Prompt.escape { session := default }).cycle = none ∧
      (Prompt.escape { session := default }).field = ⟨List.replicate 0 '.', 0⟩ := ⟨rfl, rfl, rfl⟩
  have hlimit : 0 + 1023 ≤ TextField.limit := by decide
  have htyped := Prompt.type_dots 1023 hescaped.1 hescaped.2.1 hescaped.2.2 hlimit
  rwa [Nat.zero_add] at htyped

/-- One more letter has two completions. -/
theorem dots_type {p : Prompt} (hmode : p.mode = .command)
    (hfield : p.field = ⟨List.replicate 1023 '.', 1023⟩) :
    (p.type 'h').word = ⟨1023, 1024⟩ ∧ (p.type 'h').completions = ["help", "graph"] ∧
      (p.type 'h').field = ⟨List.replicate 1023 '.' ++ ['h'], 1024⟩ ∧
      (p.type 'h').cycle = p.cycle := by
  have hinsert : p.field.insert 'h' = ⟨List.replicate 1023 '.' ++ ['h'], 1024⟩ := by
    rw [hfield]
    decide +kernel
  have hcomplete :
      ({ p with field := p.field.insert 'h', position := p.newest } : Prompt).complete =
      ({ session := default, mode := .command, field := ⟨List.replicate 1023 '.' ++ ['h'], 1024⟩ } :
          Prompt).complete := by
    simp only [Prompt.complete, hmode, hinsert]
  have hfound :
      ({ session := default, mode := .command, field := ⟨List.replicate 1023 '.' ++ ['h'], 1024⟩ } :
      Prompt).complete = (⟨1023, 1024⟩, ["help", "graph"]) := by
    decide +kernel
  have htype : p.type 'h' =
    ({ p with field := p.field.insert 'h', position := p.newest } : Prompt).refreshTyped := rfl
  rw [htype, Prompt.refreshTyped, Prompt.refresh, hcomplete, hfound]
  exact ⟨rfl, rfl, hinsert, rfl⟩

/-- There is no room for either completion, and the line can be submitted all the same. -/
theorem dotted_loses_word :
    (dots.type 'h').Reached ∧ (dots.type 'h').Sound ∧ (dots.type 'h').Submits .enter ∧
      ¬ ((dots.type 'h').press .tab).1.Sound ∧ ¬ ((dots.type 'h').press .enter).1.Sound := by
  have hreached : (dots.type 'h').Reached := dots_reached.type 'h'
  obtain ⟨hmode, hcycle, hfield⟩ := dots_line
  have hfacts := dots_type hmode hfield
  rw [hcycle] at hfacts
  have hbytes : (Utf8.encode (List.replicate 1023 '.' ++ ['h'])).length = 1024 := by decide +kernel
  have hhead : (Utf8.encode (List.replicate 1023 '.' ++ ['h'])).take 1023 =
      Utf8.encode (List.replicate 1023 '.') := by
    decide +kernel
  have htrimmed : Text.trimBoth Text.isSpace (List.replicate 1023 '.' ++ ['h']) ≠ [] := by
    decide +kernel
  have hnames : ∀ name ∈ ["help", "graph"], TextField.clean name.toList = name.toList ∧
    4 ≤ name.length := by decide
  generalize List.replicate 1023 '.' ++ ['h'] = line at *
  generalize dots.type 'h' = p at *
  obtain ⟨hword, hcompletions, hfield, hcycle⟩ := hfacts
  rw [← hcompletions] at hnames
  have hsome : p.completions ≠ [] := by simp [hcompletions]
  have hsound : p.Sound := by
    refine .inr ⟨?_, ?_⟩
    · rw [hword]
      exact Nat.le_succ 1023
    · rw [hword, TextField.bytes, hfield, hbytes]
  have henter : p.Submits .enter := by
    refine ⟨rfl, by simp [hcycle], fun hblank => htrimmed ?_⟩
    rw [TextField.text, hfield, Text.trimSpace, String.toList_ofList] at hblank
    simpa using congrArg String.toList hblank
  obtain ⟨-, -, hsteps, -, hsubmits, -⟩ := word_in_line_iff hreached
  refine ⟨hreached, hsound, henter, fun htab => ?_, fun hentered =>
    hsome ((hsubmits .enter henter).1 hentered)⟩
  obtain ⟨i, hi, -, -, -, hfits⟩ := hsteps true (by simp [hcompletions]) hsound
  obtain ⟨htakes, hlength⟩ := hnames _ (List.getElem_mem hi)
  have hend := (hfits htakes).1 htab
  rw [TextField.bytes, hfield, hword, hhead, Utf8.decode_encode, List.length_replicate] at hend
  have hlimit : TextField.limit = 1024 := rfl
  omega

end EffectChain
