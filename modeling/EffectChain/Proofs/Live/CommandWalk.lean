import EffectChain.Proofs.Live.Keys

/-!
# EffectChain.Proofs.Live.CommandWalk

The walk through the commands of the history.

A walk goes on in command mode (`Walks`), and when it leaves the history it is over
(`Rests`).  It remembers the mode and the field that it began with, and both are back when
it is over.  What was typed in the other mode is left to the switches between the modes.  A
walk that begins among statements switches to command mode, so that the command that was
typed stands in the field; entries are shown in its place, and the switch back keeps the
entry at hand as if it had been typed.

`command_walk_returns` says this of every run of the two keys that leaves the history at last.
-/

namespace EffectChain

/-- The field that an entry is shown in. -/
def HistoryEntry.field (e : HistoryEntry) : TextField := .ofChars e.line.toList e.line.utf8ByteSize

/-- The key that walks through commands. -/
def Key.commands (forward : Bool) : Key := if forward then .downCommands else .upCommands

namespace Prompt

variable {o p : Prompt} {forward : Bool} {keep : HistoryEntry → Bool} {i : Nat} {e : HistoryEntry}
  {shown : Option TextField}

theorem press_commands (p : Prompt) (forward : Bool) :
    (p.press (.commands forward)).1 = p.browseCommands forward := by
  cases forward <;> rfl

/-- The prompt after keys that walk through commands. -/
def walked (p : Prompt) (keys : List Bool) : Prompt :=
  keys.foldl (fun p d => (p.press (.commands d)).1) p

/-! ## the entries that are shown -/

/-- The place in the history lies before or behind the one at hand. -/
def Beyond (p : Prompt) (forward : Bool) (i : Nat) : Prop :=
  if forward then p.position < i else i < p.position

/-- No command lies beyond the place at hand. -/
def Leaves (p : Prompt) (forward : Bool) : Prop :=
  ∀ i e, p.Beyond forward i → p.history.entries[i]? = some e → e.mode ≠ .command

/-- There is no nearest entry just when none beyond is kept. -/
theorem nearest?_eq_none_iff : p.nearest? forward keep = none ↔
    ∀ i e, p.Beyond forward i → p.history.entries[i]? = some e → keep e = false := by
  have hahead : ∀ i, i ∈ (if forward then (List.range p.history.size).filter (p.position < ·)
      else ((List.range p.history.size).filter (· < p.position)).reverse) ↔
      i < p.history.size ∧ p.Beyond forward i := by
    intro i
    cases forward <;> simp [Beyond]
  unfold nearest?
  dsimp only
  rw [List.find?_eq_none]
  constructor
  · intro h i e hi he
    have hsize : i < p.history.size := (List.getElem?_eq_some_iff.1 he).1
    simpa [he] using h i ((hahead i).2 ⟨hsize, hi⟩)
  · intro h i hi
    obtain ⟨-, hbeyond⟩ := (hahead i).1 hi
    cases he : p.history.entries[i]? with
    | none => simp
    | some e => simp [h i e hbeyond he]

/-- The nearest entry stands in the history. -/
theorem exists_of_nearest? (h : p.nearest? forward keep = some i) :
    ∃ e, p.history.entries[i]? = some e := by
  have hkeep := List.find?_some h
  cases he : p.history.entries[i]? with
  | none => simp [he] at hkeep
  | some e => exact ⟨e, rfl⟩

/-- The field that the next key shows an entry in, unless it leaves the history. -/
def shown? (p : Prompt) (forward : Bool) : Option TextField :=
  (p.nearest? forward (·.mode = .command)).bind fun i => p.history.entries[i]?.map (·.field)

/-- No command is shown just when the walk leaves the history. -/
theorem shown?_eq_none_iff : p.shown? forward = none ↔ p.Leaves forward := by
  have hnearest : p.nearest? forward (·.mode = .command) = none ↔ p.Leaves forward := by
    simp only [nearest?_eq_none_iff, Leaves, decide_eq_false_iff_not]
  rw [← hnearest, shown?]
  cases h : p.nearest? forward (·.mode = .command) with
  | none => simp
  | some i =>
      obtain ⟨e, he⟩ := exists_of_nearest? h
      simp [he]

/-- The field that the last entry is shown in, of those that the keys show. -/
def shownLast? (p : Prompt) : List Bool → Option TextField
  | [] => none
  | d :: ds => ((p.walked [d]).shownLast? ds).or (p.shown? d)

/-! ## the parts of a key -/

/-- The prompt in a walk: the one at hand, or one that has just begun. -/
def inWalk (p : Prompt) : Prompt :=
  if p.walk.isSome then p else { p with walk := some (p.mode, p.field) }.switchTo .command

/-- The prompt when the walk is over that began with the mode and the field. -/
def walkedOff (p : Prompt) (mode : Mode) (field : TextField) : Prompt :=
  { { p with walk := none }.switchTo mode with field, position := p.newest }.refresh

theorem switchTo_history (p : Prompt) (mode : Mode) : (p.switchTo mode).history = p.history := by
  unfold switchTo
  split <;> rfl

theorem switchTo_position (p : Prompt) (mode : Mode) : (p.switchTo mode).position = p.position := by
  unfold switchTo
  split <;> rfl

theorem inWalk_history (p : Prompt) : p.inWalk.history = p.history := by
  unfold inWalk
  split
  · rfl
  · exact switchTo_history _ _

theorem inWalk_position (p : Prompt) : p.inWalk.position = p.position := by
  unfold inWalk
  split
  · rfl
  · exact switchTo_position _ _

/-- A key shows the nearest command, or the walk is over. -/
theorem browseCommands_eq (p : Prompt) (forward : Bool) : p.browseCommands forward =
    match p.nearest? forward (·.mode = .command) with
    | some i => p.inWalk.showEntry i false
    | none =>
        p.inWalk.walkedOff (p.walk.getD (p.mode, p.field)).1 (p.walk.getD (p.mode, p.field)).2 := by
  have hbegun : (if p.walk.isSome then p else
      { p with walk := some ((p.walk.getD (p.mode, p.field)).1,
                 (p.walk.getD (p.mode, p.field)).2) }.switchTo
        .command) = p.inWalk := by
    unfold inWalk
    cases hwalk : p.walk <;> rfl
  have hnearest : p.inWalk.nearest? forward (·.mode = .command) =
      p.nearest? forward (·.mode = .command) := by
    unfold nearest?
    rw [inWalk_history, inWalk_position]
  unfold browseCommands
  dsimp only
  rw [hbegun, hnearest]
  cases p.nearest? forward (·.mode = .command) with
  | some i => rfl
  | none => simp only [walkedOff, newest, switchTo_history]

/-! ## one key -/

/-- The prompt is in a walk from `o`, in which the last entry was shown in the field. -/
structure Walks (o : Prompt) (shown : Option TextField) (p : Prompt) : Prop where
  walk : p.walk = some (o.mode, o.field)
  mode : p.mode = .command
  kept : p.kept = if o.mode = .command then o.kept else o.field
  field : o.mode ≠ .command → p.field = shown.getD o.kept

/-- No walk is on.  The mode and the field are those of `o`, and so is what was typed in the
other mode, but for the entry that was shown last in a walk among statements. -/
structure Rests (o : Prompt) (shown : Option TextField) (p : Prompt) : Prop where
  walk : p.walk = none
  mode : p.mode = o.mode
  field : p.field = o.field
  kept : p.kept = if o.mode = .command then o.kept else shown.getD o.kept

theorem rests_self (h : o.walk = none) : Rests o none o := ⟨h, rfl, rfl, by simp⟩

/-- The first key begins a walk. -/
theorem Rests.inWalk (h : Rests o shown p) : Walks o shown p.inWalk := by
  have hkept := h.kept
  unfold Prompt.inWalk switchTo
  rw [if_neg (by simp [h.walk]), h.mode, h.field]
  dsimp only
  split
  · next hcommand =>
      rw [if_pos hcommand] at hkept
      exact ⟨rfl, hcommand, by rwa [if_pos hcommand], fun hne => absurd hcommand hne⟩
  · next hne =>
      rw [if_neg hne] at hkept
      refine ⟨rfl, rfl, ?_, fun _ => hkept⟩
      rw [if_neg hne]
      rfl

/-- A key in a walk goes on with it. -/
theorem Walks.inWalk (h : Walks o shown p) : Walks o shown p.inWalk := by
  unfold Prompt.inWalk
  rwa [if_pos (by simp [h.walk])]

/-- A walk goes on when it shows an entry. -/
theorem Walks.showEntry (h : Walks o shown p) (he : p.history.entries[i]? = some e) :
    Walks o (some e.field) (p.showEntry i false) := by
  unfold Prompt.showEntry
  rw [he]
  exact ⟨h.walk, h.mode, h.kept, fun _ => rfl⟩

/-- When a walk is over, the switch back keeps what the field holds. -/
theorem Walks.walkedOff (h : Walks o shown p) : Rests o shown (p.walkedOff o.mode o.field) := by
  have hkept := h.kept
  unfold Prompt.walkedOff switchTo
  dsimp only
  split
  · next hcommand =>
      have horigin : o.mode = .command := hcommand.symm.trans h.mode
      refine ⟨rfl, hcommand, rfl, ?_⟩
      rw [if_pos horigin] at hkept ⊢
      exact hkept
  · next hne =>
      have hstatement : o.mode ≠ .command := fun hcommand => hne (h.mode.trans hcommand.symm)
      refine ⟨rfl, rfl, rfl, ?_⟩
      rw [if_neg hstatement]
      exact h.field hstatement

/-- What a run of the keys has come to. -/
def Reaches (o : Prompt) (shown : Option TextField) (p : Prompt) : Prop :=
  Rests o shown p ∨ Walks o shown p

namespace Reaches

theorem inWalk (h : Reaches o shown p) : Walks o shown p.inWalk := h.elim Rests.inWalk Walks.inWalk

/-- What comes back when the walk is over is the same in either case. -/
theorem origin (h : Reaches o shown p) : p.walk.getD (p.mode, p.field) = (o.mode, o.field) := by
  rcases h with h | h
  · rw [h.walk, h.mode, h.field, Option.getD_none]
  · rw [h.walk, Option.getD_some]

/-- A key that shows an entry walks on. -/
theorem shows (h : Reaches o shown p) {f : TextField} (hf : p.shown? forward = some f) :
    Walks o (some f) (p.walked [forward]) := by
  obtain ⟨i, hi, he⟩ := Option.bind_eq_some_iff.1 hf
  obtain ⟨e, he, rfl⟩ := Option.map_eq_some_iff.1 he
  show Walks o _ (p.press (.commands forward)).1
  rw [press_commands, browseCommands_eq, hi]
  exact h.inWalk.showEntry (by rwa [inWalk_history])

/-- A key that shows none ends the walk. -/
theorem leaves (h : Reaches o shown p) (hleaves : p.Leaves forward) :
    Rests o shown (p.walked [forward]) := by
  have hnone : p.nearest? forward (·.mode = .command) = none := by
    rw [nearest?_eq_none_iff]
    exact fun i e hi he => decide_eq_false (hleaves i e hi he)
  show Rests o _ (p.press (.commands forward)).1
  rw [press_commands, browseCommands_eq, hnone, h.origin]
  exact h.inWalk.walkedOff

/-- One more key shows the nearest command, or leaves things as they are. -/
theorem key (h : Reaches o shown p) (forward : Bool) :
    Reaches o ((p.shown? forward).or shown) (p.walked [forward]) := by
  cases hshown : p.shown? forward with
  | some f => exact .inr (h.shows hshown)
  | none => exact .inl (h.leaves (shown?_eq_none_iff.1 hshown))

/-- A run of the keys, in which several walks may begin and end. -/
theorem walked (h : Reaches o shown p) (keys : List Bool) :
    Reaches o ((p.shownLast? keys).or shown) (p.walked keys) := by
  induction keys generalizing p shown with
  | nil => exact h
  | cons d ds ih =>
      have hrest := ih (h.key d)
      rwa [← Option.or_assoc] at hrest

end Reaches

/-- A run of the keys that leaves the history at last gives back the mode and the field with
its cursor, whatever the history holds and however often it was left before.  What was typed
in the other mode is given back too, unless the walk began among statements and showed an
entry; then the entry shown last stands in its place, so that it is given back only if that
entry is what was typed. -/
theorem command_walk_returns {p : Prompt} (hidle : p.walk = none) (keys : List Bool)
    {forward : Bool} (hleaves : (p.walked keys).Leaves forward) :
    (p.walked (keys ++ [forward])).walk = none ∧
      (p.walked (keys ++ [forward])).mode = p.mode ∧
      (p.walked (keys ++ [forward])).field = p.field ∧
      ((p.walked (keys ++ [forward])).kept = p.kept ↔
        p.mode = .command ∨ ∀ f, p.shownLast? keys = some f → f = p.kept) := by
  have hwalked : Rests p (p.shownLast? keys) (p.walked (keys ++ [forward])) := by
    have hrun := (Reaches.walked (.inl (rests_self hidle)) keys).leaves hleaves
    rwa [Option.or_none, walked, walked, ← List.foldl_append] at hrun
  refine ⟨hwalked.walk, hwalked.mode, hwalked.field, ?_⟩
  rw [hwalked.kept]
  cases hmode : p.mode with
  | command => simp
  | statement => cases p.shownLast? keys <;> simp

/-- A command and a statement are typed and not submitted.  Alt and the arrow up show the only
command of the history, and the arrow down leaves it. -/
def drafting : Prompt where
  session := default
  history := { entries := [⟨"graph", .command⟩] }
  field := ⟨"osc(".toList, 4⟩
  kept := ⟨"li".toList, 2⟩

/-- The command that was typed is lost. -/
theorem drafted_command_lost : drafting.walk = none ∧ (drafting.walked [false]).Leaves true ∧
    (drafting.walked [false, true]).mode = drafting.mode ∧
    (drafting.walked [false, true]).field = drafting.field ∧
    (drafting.walked [false, true]).kept ≠ drafting.kept := by
  have hleaves : (drafting.walked [false]).Leaves true := by
    rw [← shown?_eq_none_iff]
    decide +kernel
  have hshown : drafting.shownLast? [false] = some ⟨"graph".toList, 5⟩ := by decide +kernel
  obtain ⟨-, hmode, hfield, hkept⟩ := command_walk_returns (p := drafting) rfl [false] hleaves
  refine ⟨rfl, hleaves, hmode, hfield, fun hsame => ?_⟩
  rcases hkept.1 hsame with hcommand | hall
  · exact absurd hcommand (by decide)
  · exact absurd (hall _ hshown) (by decide +kernel)

end Prompt

end EffectChain
