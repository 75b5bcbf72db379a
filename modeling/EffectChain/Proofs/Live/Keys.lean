import EffectChain.Live.Key
import Mathlib.Tactic.ByContra

/-!
# EffectChain.Proofs.Live.Keys

What the keys do to the fields of a prompt.

What a field holds: characters that it takes as they are, and no more of them than its
limit (`TextField.Proper`).  Every key that edits a field keeps it so.

A line that is submitted leaves the prompt with empty fields; the rest of what it does is
about the session only (`press_submits`).  Every field holds what it may hold, also those
that are put back by a later key (`Tended.press`).
-/

namespace EffectChain.TextField

/-! ## fields -/

/-- A field takes the character as it is. -/
def Takes (c : Char) : Prop := clean [c] = [c]

theorem clean_append (cs ds : List Char) : clean (cs ++ ds) = clean cs ++ clean ds :=
  List.filterMap_append

/-- What is left of a text can be typed. -/
theorem takes_of_mem_clean {cs : List Char} {c : Char} (h : c ∈ clean cs) : Takes c := by
  obtain ⟨a, -, hc⟩ := List.mem_filterMap.1 h
  split at hc
  · obtain rfl := Option.some.inj hc
    rfl
  · next hblank =>
      split at hc
      · simp at hc
      · next hplain =>
          obtain rfl := Option.some.inj hc
          rw [Takes, clean, List.filterMap_cons, if_neg hblank, if_neg hplain]
          rfl

/-- A text that a field takes as it is. -/
theorem clean_eq_self_iff {cs : List Char} : clean cs = cs ↔ ∀ c ∈ cs, Takes c := by
  constructor
  · intro h c hc
    rw [← h] at hc
    exact takes_of_mem_clean hc
  · intro h
    induction cs with
    | nil => rfl
    | cons c cs ih =>
        obtain ⟨hc, hcs⟩ := List.forall_mem_cons.1 h
        have hsplit := clean_append [c] cs
        rw [hc, ih hcs] at hsplit
        exact hsplit

/-- The field holds what it may hold. -/
structure Proper (f : TextField) : Prop where
  takes : ∀ c ∈ f.chars, Takes c
  short : f.chars.length ≤ limit

theorem proper_empty : ({} : TextField).Proper := ⟨by simp, Nat.zero_le limit⟩

theorem proper_ofChars (cs : List Char) (cursor : Nat) : (ofChars cs cursor).Proper where
  takes _ hc := takes_of_mem_clean (List.mem_of_mem_take hc)
  short := List.length_take_le limit (clean cs)

namespace Proper

variable {f g : TextField}

/-- Characters may go. -/
theorem sublist (h : f.Proper) (hsub : g.chars.Sublist f.chars) : g.Proper where
  takes c hc := h.takes c (hsub.subset hc)
  short := Nat.le_trans hsub.length_le h.short

theorem moveTo (h : f.Proper) (cursor : Nat) : (f.moveTo cursor).Proper :=
  h.sublist (List.Sublist.refl _)

/-- Typing a character keeps a field proper. -/
theorem insert (h : f.Proper) (c : Char) : (f.insert c).Proper where
  takes a ha := by
    rcases List.mem_append.1 ha with ha | ha
    · rcases List.mem_append.1 ha with ha | ha
      · exact h.takes a (List.mem_of_mem_take ha)
      · exact takes_of_mem_clean (List.mem_of_mem_take ha)
    · exact h.takes a (List.mem_of_mem_drop ha)
  short := by
    have hshort := h.short
    simp only [TextField.insert, List.length_append, List.length_take, List.length_drop]
    omega

/-- Deleting backward keeps a field proper. -/
theorem backspace (h : f.Proper) : f.backspace.Proper := by
  have hsub : (f.chars.take (f.cursor - 1) ++ f.chars.drop f.cursor).Sublist
      (f.chars.take f.cursor ++ f.chars.drop f.cursor) :=
    (List.take_prefix_take_left (by omega)).sublist.append_right _
  rw [List.take_append_drop] at hsub
  exact h.sublist hsub

/-- Deleting forward keeps a field proper. -/
theorem delete (h : f.Proper) : f.delete.Proper := by
  have hsub : (f.chars.take f.cursor ++ f.chars.drop (f.cursor + 1)).Sublist
      (f.chars.take f.cursor ++ f.chars.drop f.cursor) :=
    (List.drop_sublist_drop_left f.chars (Nat.le_succ f.cursor)).append_left _
  rw [List.take_append_drop] at hsub
  exact h.sublist hsub

end Proper

end EffectChain.TextField

namespace EffectChain.Prompt

variable {p q : Prompt}

/-- Looking for matches changes neither mode nor field. -/
theorem refreshTyped_same (p : Prompt) :
    p.refreshTyped.mode = p.mode ∧ p.refreshTyped.field = p.field ∧
    (p.cycle = none → p.refreshTyped.cycle = none) := by
  unfold refreshTyped
  dsimp only
  split
  · split
    · exact ⟨rfl, rfl, fun _ => rfl⟩
    · exact ⟨rfl, rfl, id⟩
  · exact ⟨rfl, rfl, id⟩

/-! ## submitted lines -/

/-- The key is an Enter that keeps no completion, on a line that is not blank. -/
def Submits (p : Prompt) (k : Key) : Prop :=
  k = .enter ∧ (p.cycle.isSome && !p.completions.isEmpty) = false ∧ Text.trimSpace p.field.text ≠ ""

/-- Any other Enter keeps a completion, or the line is blank. -/
theorem press_enter (h : ¬ p.Submits .enter) :
    (p.press .enter).1 = ({ p with walk := none, cycle := none } : Prompt).refreshTyped ∨
      (p.press .enter).1 = { p with walk := none } := by
  show p.enter.1 = _ ∨ p.enter.1 = _
  unfold enter
  dsimp only
  split
  · exact .inl rfl
  · next hkeeps =>
      have hblank : Text.trimSpace p.field.text = "" := by
        by_contra hline
        exact h ⟨rfl, by simpa using hkeeps, hline⟩
      unfold submit
      dsimp only
      rw [if_pos hblank]
      exact .inr rfl

/-- Nothing has changed but the session, its files and whether it is over. -/
def OnlySession (p q : Prompt) : Prop := ∃ session files ended, q = { p with session, files, ended }

theorem OnlySession.refl (p : Prompt) : OnlySession p p := ⟨p.session, p.files, p.ended, rfl⟩

theorem change_onlySession (p : Prompt) (c : Session.Change) : OnlySession p (p.change c).1 := by
  obtain ⟨session, e | c⟩ := c
  · exact ⟨session, p.files, p.ended, rfl⟩
  · exact ⟨(session.run 1).1, p.files, p.ended, rfl⟩

/-- Running frames touches the session alone. -/
theorem runFrames_onlySession (p : Prompt) (count : Option String) :
    OnlySession p (p.runFrames count).1 := by
  unfold runFrames
  split
  · exact .refl p
  · split
    · exact .refl p
    · split <;> exact ⟨_, p.files, p.ended, rfl⟩

/-- Saving touches the session alone. -/
theorem save_onlySession (p : Prompt) (args : List String) : OnlySession p (p.save args).1 := by
  unfold save
  split
  · split
    · exact ⟨p.session, _, p.ended, rfl⟩
    · exact .refl p
  · exact .refl p

/-- A command touches the session alone. -/
theorem command?_onlySession {name : String} {args : List String} {reply : Reply}
    (h : p.command? name args = some (q, reply)) : OnlySession p q := by
  have hof : ∀ x : Prompt × Reply, some x = some (q, reply) → OnlySession p x.1 →
      OnlySession p q := by
    intro x hx honly
    rwa [Option.some.inj hx] at honly
  unfold command? at h
  split at h
  all_goals first
    | exact hof _ h (.refl p)
    | exact hof _ h (p.change_onlySession _)
    | exact hof _ h (p.runFrames_onlySession _)
    | exact hof _ h (p.save_onlySession args)
    | exact hof _ h ⟨p.session, p.files, true, rfl⟩
    | exact absurd h (by simp)

/-- Executing a line touches the session alone. -/
theorem execute_onlySession (p : Prompt) (line : String) : OnlySession p (p.execute line).1 := by
  unfold execute
  split
  · exact .refl p
  · split
    · next hcommand => exact command?_onlySession hcommand
    · next hcommand => exact command?_onlySession hcommand
    · exact .refl p

/-- A line that is submitted leaves its word and the completions behind. -/
theorem press_submits {k : Key} (h : p.Submits k) : ∃ history position,
    OnlySession { p with history, position, field := {}, kept := {}, walk := none }
      (p.press k).1 := by
  obtain ⟨rfl, hkeeps, hline⟩ := h
  show ∃ history position, OnlySession _ p.enter.1
  unfold enter
  dsimp only
  rw [hkeeps, if_neg Bool.false_ne_true]
  unfold submit
  dsimp only
  rw [if_neg hline]
  refine ⟨p.history.add (Text.trimSpace p.field.text) p.mode,
    (p.history.add (Text.trimSpace p.field.text) p.mode).size, ?_⟩
  split
  · exact execute_onlySession _ _
  · exact change_onlySession _ _

/-- Taking an edited source touches the session alone. -/
theorem takeEdit_onlySession (p : Prompt) (outcome : EditOutcome) :
    OnlySession p (p.takeEdit outcome).1 := by
  cases outcome with
  | edited source => exact p.change_onlySession _
  | cancelled => exact .refl p
  | declined => exact ⟨p.session, p.files, true, rfl⟩
  | failed message => exact .refl p

/-! ## the fields of a prompt -/

/-- Every field holds what it may hold, also those that are put back later. -/
structure Tended (p : Prompt) : Prop where
  field : p.field.Proper
  kept : p.kept.Proper
  cycle : ∀ c, p.cycle = some c → c.before.Proper
  walk : ∀ w, p.walk = some w → w.2.Proper

namespace Tended

theorem withCycle (h : p.Tended) {cycle : Option Cycle}
    (hcycle : ∀ c, cycle = some c → c.before.Proper) :
    ({ p with cycle } : Prompt).Tended :=
  ⟨h.field, h.kept, hcycle, h.walk⟩

theorem withWalk (h : p.Tended) {walk : Option (Mode × TextField)}
    (hwalk : ∀ w, walk = some w → w.2.Proper) :
    ({ p with walk } : Prompt).Tended :=
  ⟨h.field, h.kept, h.cycle, hwalk⟩

theorem endCycle (h : p.Tended) : ({ p with cycle := none } : Prompt).Tended :=
  h.withCycle (by simp)

theorem endWalk (h : p.Tended) : ({ p with walk := none } : Prompt).Tended := h.withWalk (by simp)

theorem settle (h : p.Tended) : p.settle.Tended := ⟨h.field, h.kept, h.endCycle.cycle, h.walk⟩

theorem refresh (h : p.Tended) : p.refresh.Tended := ⟨h.field, h.kept, h.cycle, h.walk⟩

theorem refreshTyped (h : p.Tended) : p.refreshTyped.Tended := by
  unfold Prompt.refreshTyped
  dsimp only
  split
  · split
    · exact h.refresh.settle
    · exact h.refresh
  · exact h.refresh

theorem onlySession (h : p.Tended) (hq : OnlySession p q) : q.Tended := by
  obtain ⟨session, files, ended, rfl⟩ := hq
  exact ⟨h.field, h.kept, h.cycle, h.walk⟩

theorem edit (h : p.Tended) {f : TextField → TextField} (hf : (f p.field).Proper) :
    (p.edit f).Tended :=
  refresh ⟨hf, h.kept, by simp, by simp⟩

/-- Switching the mode keeps the prompt tended. -/
theorem switchTo (h : p.Tended) (mode : Mode) : (p.switchTo mode).Tended := by
  unfold Prompt.switchTo
  split
  · exact h
  · exact refresh ⟨h.kept, h.field, h.cycle, h.walk⟩

/-- Showing an entry of the history keeps the prompt tended. -/
theorem showEntry (h : p.Tended) (i : Nat) (follow : Bool) : (p.showEntry i follow).Tended := by
  unfold Prompt.showEntry
  split
  · exact h
  · next e he =>
      have hmode : (if follow then p.switchTo e.mode else p).Tended := by
        split
        · exact h.switchTo e.mode
        · exact h
      exact refresh ⟨TextField.proper_ofChars _ _, hmode.kept, hmode.cycle, hmode.walk⟩

/-- A walk through the history keeps the prompt tended. -/
theorem browse (h : p.Tended) (forward follow : Bool) (keep : HistoryEntry → Bool) :
    (p.browse forward follow keep).Tended := by
  unfold Prompt.browse
  split
  · exact h.showEntry _ follow
  · split
    · exact refresh ⟨TextField.proper_empty, h.kept, h.cycle, h.walk⟩
    · exact h

/-- A walk through the commands keeps the prompt tended. -/
theorem browseCommands (h : p.Tended) (forward : Bool) : (p.browseCommands forward).Tended := by
  have hfield : (p.walk.getD (p.mode, p.field)).2.Proper := by
    cases hwalk : p.walk with
    | none => exact h.field
    | some w => exact h.walk w hwalk
  unfold Prompt.browseCommands
  dsimp only
  have hcommands : (if p.walk.isSome then p else
      { p with walk := some ((p.walk.getD (p.mode, p.field)).1,
                 (p.walk.getD (p.mode, p.field)).2) }.switchTo
        .command).Tended := by
    split
    · exact h
    · refine (h.withWalk fun w hw => ?_).switchTo .command
      rw [← Option.some.inj hw]
      exact hfield
  generalize (if p.walk.isSome then p else _) = p₁ at *
  split
  · exact hcommands.showEntry _ false
  · have hback := hcommands.endWalk.switchTo (p.walk.getD (p.mode, p.field)).1
    exact refresh ⟨hfield, hback.kept, hback.cycle, hback.walk⟩

theorem replaceWord (h : p.Tended) (name : String) : (p.replaceWord name).Tended :=
  ⟨TextField.proper_ofChars _ _, h.kept, h.cycle, h.walk⟩

/-- Showing the next match keeps the prompt tended. -/
theorem step (h : p.Tended) (forward : Bool) : (p.step forward).Tended := by
  unfold Prompt.step
  split
  · exact h
  · exact (h.replaceWord _).settle
  · refine (h.withCycle fun c hc => ?_).replaceWord _
    rw [← Option.some.inj hc]
    split
    · next c hc => exact h.cycle c hc
    · exact h.field

/-- Submitting a line keeps the prompt tended. -/
theorem submits (h : p.Tended) {k : Key} (hk : p.Submits k) : (p.press k).1.Tended := by
  obtain ⟨history, position, honly⟩ := press_submits hk
  have hemptied :
      ({ p with history, position, field := {}, kept := {}, walk := none } : Prompt).Tended :=
    ⟨TextField.proper_empty, TextField.proper_empty, h.cycle, h.endWalk.walk⟩
  exact hemptied.onlySession honly

/-- Every key keeps the prompt tended. -/
theorem press (h : p.Tended) (k : Key) : (p.press k).1.Tended := by
  by_cases hk : p.Submits k
  · exact h.submits hk
  cases k with
  | char c =>
      have hcycle : (if c = ' ' then { p with cycle := none } else p).Tended := by
        split
        · exact h.endCycle
        · exact h
      exact refreshTyped ⟨hcycle.field.insert c, hcycle.kept, hcycle.cycle, hcycle.walk⟩
  | enter =>
      rcases press_enter hk with hconfirm | hblank
      · rw [hconfirm]
        exact h.endWalk.endCycle.refreshTyped
      · rw [hblank]
        exact h.endWalk
  | tab => exact h.step true
  | backTab => exact h.step false
  | escape =>
      show p.escape.Tended
      unfold escape
      split
      · next c hc => exact refresh ⟨h.cycle c hc, h.kept, h.endCycle.cycle, h.walk⟩
      · exact h.endWalk.switchTo _
  | interrupt =>
      show p.interrupt.1.Tended
      unfold interrupt
      split
      · exact ⟨h.field, h.kept, h.cycle, h.walk⟩
      · exact h.edit (f := fun _ => {}) TextField.proper_empty
  | endOfInput =>
      simp only [Prompt.press]
      split
      · exact ⟨h.field, h.kept, h.cycle, h.walk⟩
      · exact h
  | up => exact h.browse ..
  | down => exact h.browse ..
  | upInMode => exact h.browse ..
  | downInMode => exact h.browse ..
  | upCommands => exact h.browseCommands _
  | downCommands => exact h.browseCommands _
  | backspace => exact h.edit h.field.backspace
  | delete => exact h.edit h.field.delete
  | left => exact h.edit (h.field.moveTo _)
  | right => exact h.edit (h.field.moveTo _)
  | home => exact h.edit (h.field.moveTo _)
  | toEnd => exact h.edit (h.field.moveTo _)

end Tended

end EffectChain.Prompt
