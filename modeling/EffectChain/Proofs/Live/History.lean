import EffectChain.Live.History
import EffectChain.Proofs.Text.Trimmed
import Mathlib.Data.List.Dedup

/-!
# EffectChain.Proofs.Live.History

The history in memory against the one in its file.

A text of lines is told apart again at the ends of its lines (`Text.splitChar_ofLines`).

Some lines that are submitted are added to the file, and some have it written anew.  Either
way the file has the entries in memory for its lines, one after the other
(`History.Filed.submit`).  A line is read back as the entry it was written for, also when it
begins with the mark of a mode itself (`HistoryEntry.ofText_text`), so the file alone gives the
entries back (`History.entriesOf_ofLines`).

* `history_reloaded` — the file and the entries after any lines, and what is loaded from it.
-/

namespace EffectChain

namespace Text

/-! ## lines -/

/-- A list is split at the first separator. -/
theorem splitList_append {α : Type} [DecidableEq α] {sep : α} {xs : List α} (h : sep ∉ xs)
    (rest : List α) :
    splitList sep (xs ++ sep :: rest) = xs :: splitList sep rest := by
  induction xs with
  | nil => simp [splitList]
  | cons x xs ih =>
    rw [List.mem_cons, not_or] at h
    rw [List.cons_append, splitList, if_neg (Ne.symm h.1), ih h.2]

theorem ofLines_cons (l : String) (ls : List String) :
    ofLines (l :: ls) = l ++ "\n" ++ ofLines ls := by
  rw [← String.toList_inj]
  simp [ofLines, String.toList_join]

theorem ofLines_append (ls ms : List String) : ofLines (ls ++ ms) = ofLines ls ++ ofLines ms := by
  rw [← String.toList_inj]
  simp [ofLines, String.toList_join]

/-- The lines of a text are the ones it was made of; behind the end of the last one stands
nothing. -/
theorem splitChar_ofLines {ls : List String} (h : ∀ l ∈ ls, '\n' ∉ l.toList) :
    splitChar '\n' (ofLines ls) = ls ++ [""] := by
  induction ls with
  | nil => rfl
  | cons l ls ih =>
    obtain ⟨hl, hls⟩ := List.forall_mem_cons.1 h
    have hcons : (ofLines (l :: ls)).toList = l.toList ++ '\n' :: (ofLines ls).toList := by
      rw [ofLines_cons]
      simp
    rw [splitChar, hcons, splitList_append hl, List.map_cons, String.ofList_toList]
    exact congrArg (l :: ·) (ih hls)

end Text

/-! ## lines of the file -/

namespace HistoryEntry

/-- The entry a line is submitted as. -/
def ofLine (line : String) (mode : Mode) : HistoryEntry := ⟨Text.trimSpace line, mode⟩

/-- The entry is a line without white space at its ends, and not blank. -/
structure Tidy (e : HistoryEntry) : Prop where
  trimmed : Text.trimSpace e.line = e.line
  nonblank : e.line ≠ ""
  single : '\n' ∉ e.line.toList

/-- A line without newlines makes a tidy entry, unless it is blank. -/
theorem tidy_ofLine {line : String} {mode : Mode} (hsingle : '\n' ∉ line.toList)
    (hblank : (ofLine line mode).line ≠ "") :
    (ofLine line mode).Tidy where
  trimmed := Text.trimSpace_trimSpace line
  nonblank := hblank
  single hmem := hsingle (Text.mem_of_mem_trimSpace hmem)

/-- A prefix that was put in front can be taken off. -/
theorem dropPrefix?_append (pre s : String) :
    ((pre ++ s).dropPrefix? pre).map (·.toString) = some s := by
  cases hdrop : (pre ++ s).dropPrefix? pre with
  | none =>
    rw [String.dropPrefix?_eq_dropPrefix?_toSlice, String.Slice.dropPrefix?_eq_none_iff] at hdrop
    simp at hdrop
  | some rest =>
    have happend := String.eq_append_of_dropPrefix?_string_eq_some hdrop
    rw [String.append_right_inj] at happend
    exact congrArg some happend.symm

/-- A line of the file stands for the entry it was written for. -/
theorem ofText_text (e : HistoryEntry) : ofText e.text = e := by
  obtain ⟨line, mode⟩ := e
  have hdrop := dropPrefix?_append mode.mark line
  cases mode with
  | command =>
    obtain ⟨rest, hrest, hline⟩ := Option.map_eq_some_iff.1 hdrop
    rw [text, ofText, hrest, ← hline]
  | statement =>
    have hother : (Mode.statement.mark ++ line).dropPrefix? Mode.command.mark = none := by
      change ("E:" ++ line).dropPrefix? "C:" = none
      rw [String.dropPrefix?_eq_dropPrefix?_toSlice, String.Slice.dropPrefix?_eq_none_iff]
      simp
    rw [text, ofText, hother, hdrop, Option.getD_some]

namespace Tidy

variable {e : HistoryEntry}

theorem toList_text (e : HistoryEntry) : e.text.toList = e.mode.mark.toList ++ e.line.toList := by
  rw [text, String.toList_append]

/-- The mark stands before the line and the line is trimmed. -/
theorem trimSpace_text (h : e.Tidy) : Text.trimSpace e.text = e.text := by
  have hline : e.line.toList ≠ [] := by simpa using h.nonblank
  rw [Text.trimSpace, Text.trimBoth_eq_self, String.ofList_toList]
  · rw [toList_text]
    cases e.mode <;> simp [Mode.mark, Text.isSpace]
  · intro c hc
    rw [toList_text, List.getLast?_append_of_ne_nil _ hline, ← h.trimmed, Text.trimSpace,
      String.toList_ofList] at hc
    exact Text.getLast?_trimBoth _ c hc

/-- No entry is filed as an empty text. -/
theorem text_ne (e : HistoryEntry) : e.text ≠ "" := by
  intro hempty
  have hlist := congrArg String.toList hempty
  rw [toList_text] at hlist
  cases hmode : e.mode <;> simp [hmode, Mode.mark] at hlist

theorem single_text (h : e.Tidy) : '\n' ∉ e.text.toList := by
  rw [toList_text, List.mem_append, not_or]
  refine ⟨?_, h.single⟩
  cases e.mode <;> decide

end Tidy

end HistoryEntry

/-! ## entries and their file -/

namespace History

open HistoryEntry

variable {h : History} {es : List HistoryEntry}

/-- The entries of a file that was written from entries. -/
theorem entriesOf_ofLines (hes : ∀ e ∈ es, e.Tidy) :
    entriesOf (Text.ofLines (es.map text)) = es := by
  have hlines : ∀ l ∈ es.map text, '\n' ∉ l.toList := by
    intro l hl
    obtain ⟨e, he, rfl⟩ := List.mem_map.1 hl
    exact (hes e he).single_text
  have htrimmed : (es.map text).map Text.trimSpace = es.map text := by
    rw [List.map_map]
    exact List.map_congr_left fun e he => (hes e he).trimSpace_text
  have hfilter : (es.map text).filter (· ≠ "") = es.map text := by
    refine List.filter_eq_self.2 fun l hl => ?_
    obtain ⟨e, -, rfl⟩ := List.mem_map.1 hl
    simpa using Tidy.text_ne e
  have hread : (es.map text).map ofText = es := by
    rw [List.map_map, List.map_congr_left (f := ofText ∘ text) (g := id) fun e _ => ofText_text e,
      List.map_id]
  have hempty : ([""].map Text.trimSpace).filter (· ≠ "") = [] := rfl
  rw [entriesOf, Text.splitChar_ofLines hlines, List.map_append, List.filter_append, htrimmed,
    hfilter, hempty, List.append_nil, hread]

/-- The history is kept in a file, which has the entries for its lines. -/
structure Filed (h : History) : Prop where
  stored : h.stored = true
  file : h.file.getD "" = Text.ofLines (h.entries.map text)
  tidy : ∀ e ∈ h.entries, e.Tidy
  nodup : h.entries.Nodup

theorem filed_empty : Filed { stored := true } := ⟨rfl, rfl, by simp, List.nodup_nil⟩

/-- A history that has nothing but the file of another one loads the entries of that one. -/
theorem Filed.reload (hfiled : h.Filed) :
    ({ stored := true, file := h.file } : History).load.entries = h.entries := by
  rw [load, if_pos rfl]
  exact (congrArg entriesOf hfiled.file).trans (entriesOf_ofLines hfiled.tidy)

/-- The history with an entry that is submitted. -/
def submit (h : History) (e : HistoryEntry) : History :=
  if e.line = "" ∨ h.entries.getLast? = some e then h
  else if e ∈ h.entries then
    { h with
      entries := h.entries.erase e ++ [e]
      file := if h.stored then some (Text.ofLines ((h.entries.erase e ++ [e]).map text))
        else h.file }
  else
    { h with
      entries := h.entries ++ [e]
      file := if h.stored then some (h.file.getD "" ++ e.text ++ "\n") else h.file }

theorem add_eq_submit (h : History) (line : String) (mode : Mode) :
    h.add line mode = h.submit (ofLine line mode) := by
  simp only [add, submit, ofLine, Bool.or_eq_true, decide_eq_true_eq, List.contains_iff_mem]
  rfl

/-- An entry that is submitted stands last, and nowhere else. -/
theorem entries_submit (hnodup : h.entries.Nodup) {e : HistoryEntry} (hnonblank : e.line ≠ "") :
    (h.submit e).entries = h.entries.erase e ++ [e] := by
  unfold submit
  split
  · next hkept =>
      -- the entry stands last already
      obtain ⟨before, hbefore⟩ := List.getLast?_eq_some_iff.1 (hkept.resolve_left hnonblank)
      have hfresh : e ∉ before := by
        rw [hbefore] at hnodup
        exact fun hmem => (List.nodup_append.1 hnodup).2.2 e hmem e (by simp) rfl
      rw [hbefore, List.erase_append_right _ hfresh]
      simp
  · split
    · rfl
    · next hnew => rw [List.erase_of_not_mem hnew]

theorem submit_blank {e : HistoryEntry} (hblank : e.line = "") : h.submit e = h :=
  if_pos (.inl hblank)

/-- The lines of the file are those of the entries, whether one is added or all are written. -/
theorem file_submit (hstored : h.stored = true)
    (hfile : h.file.getD "" = Text.ofLines (h.entries.map text)) (e : HistoryEntry) :
    (h.submit e).stored = true ∧ (h.submit e).file.getD "" =
      Text.ofLines ((h.submit e).entries.map text) := by
  unfold submit
  split
  · exact ⟨hstored, hfile⟩
  · split
    · refine ⟨hstored, ?_⟩
      rw [hstored]
      rfl
    · refine ⟨hstored, ?_⟩
      change h.file.getD "" ++ e.text ++ "\n" = Text.ofLines ((h.entries ++ [e]).map text)
      rw [hfile, List.map_append, Text.ofLines_append, String.append_assoc]
      rfl

/-- Submitting a tidy entry keeps the history filed. -/
theorem Filed.submit (hfiled : h.Filed) {e : HistoryEntry} (htidy : e.line ≠ "" → e.Tidy) :
    (h.submit e).Filed := by
  by_cases hblank : e.line = ""
  · rwa [submit_blank hblank]
  have hentries := entries_submit hfiled.nodup hblank
  obtain ⟨hstored, hfile⟩ := file_submit hfiled.stored hfiled.file e
  refine ⟨hstored, hfile, fun x hx => ?_, ?_⟩
  · rw [hentries] at hx
    rcases List.mem_append.1 hx with hx | hx
    · exact hfiled.tidy x (List.mem_of_mem_erase hx)
    · exact List.mem_singleton.1 hx ▸ htidy hblank
  · rw [hentries]
    refine (hfiled.nodup.erase e).append (List.nodup_singleton e) ?_
    simpa using hfiled.nodup.not_mem_erase

/-! ## any lines -/

/-- The history after some lines were submitted. -/
def addAll (h : History) (lines : List (String × Mode)) : History :=
  lines.foldl (fun h l => h.add l.1 l.2) h

theorem addAll_cons (h : History) (l : String × Mode) (lines : List (String × Mode)) :
    h.addAll (l :: lines) = (h.add l.1 l.2).addAll lines := rfl

/-- The entries that some lines stand for; blank lines stand for none. -/
def entriesFor (lines : List (String × Mode)) : List HistoryEntry :=
  (lines.map fun l => ofLine l.1 l.2).filter (·.line ≠ "")

/-- A new entry takes the place of its earlier copy, at the end. -/
theorem dedup_concat (es : List HistoryEntry) (e : HistoryEntry) :
    (es ++ [e]).dedup = es.dedup.erase e ++ [e] := by
  induction es with
  | nil => simp
  | cons a es ih =>
    by_cases ha : a ∈ es
    · rw [List.cons_append, List.dedup_cons_of_mem (List.mem_append_left _ ha),
        List.dedup_cons_of_mem ha, ih]
    · by_cases hae : a = e
      · subst hae
        rw [List.cons_append, List.dedup_cons_of_mem (by simp), ih, List.dedup_cons_of_notMem ha,
          List.erase_cons_head, List.erase_of_not_mem (by simpa using ha)]
      · have hnew : a ∉ es ++ [e] := by simp [ha, hae]
        rw [List.cons_append, List.dedup_cons_of_notMem hnew, List.dedup_cons_of_notMem ha, ih,
          List.erase_cons_tail (by simpa using hae)]
        rfl

/-- Adding lines keeps the history filed, with the last copy of each entry. -/
theorem Filed.addAll (hfiled : h.Filed) {lines : List (String × Mode)}
    (hlines : ∀ l ∈ lines, '\n' ∉ l.1.toList) (hentries : h.entries = es.dedup) :
    (h.addAll lines).Filed ∧ (h.addAll lines).entries = (es ++ entriesFor lines).dedup := by
  induction lines generalizing h es with
  | nil => exact ⟨hfiled, by simpa [History.addAll, entriesFor] using hentries⟩
  | cons l lines ih =>
    obtain ⟨hl, hlines⟩ := List.forall_mem_cons.1 hlines
    have hadd := add_eq_submit h l.1 l.2
    have hnext : (h.add l.1 l.2).entries = (es ++ entriesFor [l]).dedup := by
      rw [hadd]
      by_cases hblank : (ofLine l.1 l.2).line = ""
      · simp [entriesFor, hblank, submit_blank, hentries]
      · rw [entries_submit hfiled.nodup hblank, hentries]
        simp [entriesFor, hblank, dedup_concat]
    obtain ⟨hall, heq⟩ := ih (hadd ▸ hfiled.submit (tidy_ofLine hl)) hlines hnext
    rw [addAll_cons]
    refine ⟨hall, heq.trans ?_⟩
    rw [List.append_assoc, entriesFor, entriesFor, entriesFor, ← List.filter_append,
      ← List.map_append]
    rfl

end History

open History in
/-- Whatever lines are submitted to a history whose file is missing, the file has the entries in
memory for its lines, and a history that starts with nothing but this file loads exactly these
entries.  They are the lines that are not blank, trimmed and with their modes, each one once,
in the order in which they were submitted last. -/
theorem history_reloaded (lines : List (String × Mode)) (hlines : ∀ l ∈ lines, '\n' ∉ l.1.toList) :
    let h := ({ stored := true } : History).addAll lines
    h.file.getD "" = Text.ofLines (h.entries.map HistoryEntry.text) ∧
      ({ stored := true, file := h.file } : History).load.entries = h.entries ∧
      h.entries.Nodup ∧ (∀ e ∈ h.entries, e.Tidy) ∧ h.entries = (entriesFor lines).dedup := by
  have hnone : ({ stored := true } : History).entries = ([] : List HistoryEntry).dedup := rfl
  obtain ⟨hfiled, hentries⟩ := filed_empty.addAll hlines hnone
  exact ⟨hfiled.file, hfiled.reload, hfiled.nodup, hfiled.tidy, hentries⟩

/-- A statement that begins like a command in the file is submitted twice, and once as a
command. -/
def echoes : List (String × Mode) :=
  [("C:list", .statement), ("C:list", .command), ("\t", .command), (" C:list ", .statement),
    ("list", .command)]

theorem echoes_reloaded :
    (∀ l ∈ echoes, '\n' ∉ l.1.toList) ∧
      (({ stored := true } : History).addAll echoes).file = some "C:C:list\nE:C:list\nC:list\n" ∧
      ({ stored := true, file := some "C:C:list\nE:C:list\nC:list\n" } : History).load.entries =
        [⟨"C:list", .command⟩, ⟨"C:list", .statement⟩, ⟨"list", .command⟩] := by
  have hlines : ∀ l ∈ echoes, '\n' ∉ l.1.toList := by decide
  have hfile : (({ stored := true } : History).addAll echoes).file =
      some "C:C:list\nE:C:list\nC:list\n" := by
    decide +kernel
  obtain ⟨-, hload, -, -, hentries⟩ := history_reloaded echoes hlines
  rw [hfile, hentries] at hload
  refine ⟨hlines, hfile, hload.trans ?_⟩
  decide +kernel

end EffectChain
