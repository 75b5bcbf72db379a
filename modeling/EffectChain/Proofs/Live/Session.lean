import EffectChain.Live.Session
import EffectChain.Proofs.Engine.Overrides

/-!
# EffectChain.Proofs.Live.Session

The lines of a session and the program that runs.

What is done in a session is refused, and then the lines and the program stay
(`perform_error`), or it makes lines the program.  So the lines are always those of the
program that runs: compiling them gives its plan (`InStep.perform`, `InStep.performAll`).

* `lines_in_step` — this for every session, from its first load on;
* `coherent_performAll` — the renderer runs the graph of this program.
-/

namespace EffectChain

namespace Engine

variable {β : Type} {e e' e'' : Engine β}

/-- Both engines compile a source to the same. -/
def CompilesAlike (e e' : Engine β) : Prop :=
  ∀ source overrides, e'.compile source overrides = e.compile source overrides

theorem CompilesAlike.trans (h : e.CompilesAlike e') (h' : e'.CompilesAlike e'') :
    e.CompilesAlike e'' :=
  fun source overrides => (h' source overrides).trans (h source overrides)

variable [Backend β]

/-- Recompiling does not change how an engine compiles. -/
theorem recompile_compilesAlike (e : Engine β) (source : String)
    (overrides : List Graph.ShaderOverride) :
    e.CompilesAlike (e.recompile source overrides).1 := by
  intro source' overrides'
  unfold recompile
  split
  · rfl
  · dsimp only
    split
    · rfl
    · split <;> rfl

/-- A frame does not change how an engine compiles. -/
theorem advance_compilesAlike (e : Engine β) (ns : Int) : e.CompilesAlike (e.advance ns).1 := by
  intro source overrides
  unfold advance
  dsimp only
  split <;> rfl

/-- The renderer runs the graph of the program. -/
def Coherent (e : Engine β) : Prop :=
  ∀ c, e.current = some c → e.exec.current.map (·.graph) = some c.graph

omit [Backend β] in
/-- An engine with the same current graph and a kept executor stays coherent. -/
theorem Coherent.retains (h : e.Coherent) (hcurrent : e'.current = e.current)
    (hexec : e.exec.Retains e'.exec) :
    e'.Coherent := by
  intro c hc
  rw [hexec.current]
  exact h c (hcurrent ▸ hc)

/-- New source leaves the renderer with the graph of the program, whether it is accepted or
not. -/
theorem Coherent.recompile (h : e.Coherent) (source : String) :
    (e.recompile source).1.Coherent := by
  cases hres : (e.recompile source).2 with
  | error err =>
      obtain ⟨hcurrent, hexec, -⟩ := recompile_refused hres
      exact h.retains hcurrent hexec
  | ok kept =>
      cases hplan : Plan.compile (Bytes.ofString source) e.library.registry e.options with
      | error err =>
          have hc : e.compile source [] = .error (.compile err) := by simp [compile, hplan]
          simp [Engine.recompile, hc] at hres
      | ok plan =>
          rcases recompile_cases hplan hres with ⟨-, old, hold, -, -, he⟩
            | ⟨-, c, exec, -, -, -, hruns, he⟩
          · rw [he]
            rintro c hc
            obtain rfl := Option.some.inj hc
            exact h old hold
          · rw [he]
            rintro c' hc
            obtain rfl := Option.some.inj hc
            exact hruns

/-- The program that runs after a source was accepted has the plan of the source. -/
theorem recompile_ok {source : String} {c : Compiled} (h : e.recompile source = (e', .ok c)) :
    e'.current = some c ∧ ∃ c', e.compile source [] = .ok c' ∧ c'.plan.id = c.plan.id := by
  unfold recompile at h
  split at h
  · simp at h
  · next c' hc =>
      dsimp only at h
      split at h
      · next old _ hruns =>
          obtain ⟨-, hsame⟩ := Option.filter_eq_some_iff.1 hruns
          simp only [Bool.and_eq_true, decide_eq_true_eq] at hsame
          obtain ⟨rfl, hres⟩ := Prod.mk.inj h
          obtain rfl := Except.ok.inj hres
          exact ⟨rfl, c', hc, hsame.1.symm⟩
      · split at h
        · simp at h
        · obtain ⟨rfl, hres⟩ := Prod.mk.inj h
          obtain rfl := Except.ok.inj hres
          exact ⟨rfl, c', hc, rfl⟩

end Engine

namespace Session

/-! ## what is done in a session -/

/-- What can be done in a session. -/
inductive Op where
  | load
  | eval (line : String)
  | undo
  | set (sets : List String)
  | replace (source : String)
  | run (frames : Nat)

section op

variable {β : Type}

/-- Why a change was refused, if it was. -/
def refusal (change : Change β) : Session β × Option SessionError :=
  match change with
  | (s, .ok _) => (s, none)
  | (s, .error err) => (s, some err)

theorem refusal_session (change : Change β) : (refusal change).1 = change.1 := by
  obtain ⟨s, c | err⟩ := change <;> rfl

/-- A change without refusal has a compilation. -/
theorem eq_ok_of_refusal {change : Change β} (h : (refusal change).2 = none) :
    ∃ c, change = ((refusal change).1, .ok c) := by
  obtain ⟨s, c | err⟩ := change
  · cases h
  · exact ⟨err, rfl⟩

variable [Backend β]

def perform (s : Session β) : Op → Session β × Option SessionError
  | .load => refusal s.load
  | .eval line => refusal (s.append line)
  | .undo => refusal s.undo
  | .set sets => refusal (s.override sets)
  | .replace source => refusal (s.replace source)
  | .run frames => s.run frames

/-- One after another, whether they are refused or not. -/
def performAll (s : Session β) (ops : List Op) : Session β :=
  ops.foldl (fun s op => (s.perform op).1) s

end op

variable {β : Type} {s s' s'' : Session β} {c : Compiled}

/-! ## what is refused -/

/-- The lines and the program are the same, and the renderer has lost nothing. -/
structure Untouched (s s' : Session β) : Prop where
  lines : s'.lines = s.lines
  current : s'.engine.current = s.engine.current
  compiles : s.engine.CompilesAlike s'.engine
  exec : s.engine.exec.Retains s'.engine.exec

namespace Untouched

theorem refl (s : Session β) : s.Untouched s := ⟨rfl, rfl, fun _ _ => rfl, .refl _⟩

/-- A session untouched twice is untouched. -/
theorem trans (h : s.Untouched s') (h' : s'.Untouched s'') : s.Untouched s'' where
  lines := h'.lines.trans h.lines
  current := h'.current.trans h.current
  compiles := h.compiles.trans h'.compiles
  exec := h.exec.trans h'.exec

end Untouched

variable [Backend β]

/-- Lines that are refused leave the session untouched. -/
theorem apply_error {lines : List String} {err : SessionError}
    (h : s.apply lines = (s', .error err)) :
    s.Untouched s' := by
  have halike := s.engine.recompile_compilesAlike (sourceOf lines) []
  unfold apply at h
  split at h
  · simp at h
  · next engine err' hrefused =>
      obtain ⟨rfl, -⟩ := Prod.mk.inj h
      obtain ⟨hcurrent, hexec, -⟩ := Engine.recompile_refused (congrArg Prod.snd hrefused)
      rw [hrefused] at hcurrent hexec halike
      exact ⟨rfl, hcurrent, halike, hexec⟩

/-- Rendering frames changes no line and no program, whether they fail or not. -/
theorem untouched_frames (s : Session β) (n : Nat) : s.Untouched (s.frames n).1 := by
  have hone : ∀ s : Session β, s.Untouched { s with engine := (s.engine.advance frameTime).1 } := by
    intro s
    obtain ⟨hcurrent, hexec, -⟩ := s.engine.advance_retains frameTime
    exact ⟨rfl, hcurrent, s.engine.advance_compilesAlike frameTime, hexec⟩
  induction n generalizing s with
  | zero => exact .refl s
  | succ n ih =>
      have hfirst := hone s
      unfold frames
      split <;> next hadvance =>
        rw [hadvance] at hfirst
        first | exact hfirst.trans (ih _) | exact hfirst

/-- Running frames leaves the session untouched. -/
theorem untouched_run (s : Session β) (n : Nat) : s.Untouched (s.run n).1 := by
  unfold run
  split
  · exact .refl s
  · exact s.untouched_frames n

/-- What is done makes lines the program, or it leaves the session alone. -/
theorem perform_cases (s : Session β) (op : Op) :
    (∃ lines, s.perform op = refusal (s.apply lines)) ∨ s.Untouched (s.perform op).1 := by
  cases op with
  | load => exact .inl ⟨_, rfl⟩
  | eval line => exact .inl ⟨_, rfl⟩
  | undo =>
      show (∃ lines, refusal s.undo = refusal (s.apply lines)) ∨ s.Untouched (refusal s.undo).1
      unfold undo
      split
      · exact .inr (.refl s)
      · exact .inl ⟨_, rfl⟩
  | set sets =>
      show (∃ lines, refusal (s.override sets) = refusal (s.apply lines)) ∨
        s.Untouched (refusal (s.override sets)).1
      unfold override
      split
      · exact .inr (.refl s)
      · split
        · exact .inr (.refl s)
        · exact .inl ⟨_, rfl⟩
  | replace source => exact .inl ⟨_, rfl⟩
  | run frames => exact .inr (s.untouched_run frames)

/-- What is refused leaves the lines and the program. -/
theorem perform_error {op : Op} {err : SessionError} (h : s.perform op = (s', some err)) :
    s.Untouched s' := by
  rcases s.perform_cases op with ⟨lines, hperform⟩ | huntouched
  · rw [hperform] at h
    cases happly : s.apply lines with
    | mk s₁ r =>
        rw [happly] at h
        cases r with
        | ok c => simp [refusal] at h
        | error err' =>
            obtain ⟨rfl, -⟩ := Prod.mk.inj h
            exact apply_error happly
  · rwa [h] at huntouched

/-! ## the lines of the program -/

/-- The program runs, and compiling the lines gives its plan. -/
structure InStep (s : Session β) (c : Compiled) : Prop where
  current : s.engine.current = some c
  compiles : ∃ c', s.engine.compile s.source [] = .ok c' ∧ c'.plan.id = c.plan.id

omit [Backend β] in
/-- An untouched session stays in step. -/
theorem Untouched.inStep (h : s.Untouched s') (hs : s.InStep c) : s'.InStep c where
  current := h.current.trans hs.current
  compiles := by
    obtain ⟨c', hc', hid⟩ := hs.compiles
    exact ⟨c', by rw [source, h.lines, h.compiles]; exact hc', hid⟩

/-- Lines that are accepted are the lines of the program. -/
theorem apply_ok {lines : List String} (h : s.apply lines = (s', .ok c)) :
    s'.lines = lines ∧ s.engine.CompilesAlike s'.engine ∧ s'.InStep c := by
  have halike := s.engine.recompile_compilesAlike (sourceOf lines) []
  unfold apply at h
  split at h
  · next engine c' hok =>
      obtain ⟨rfl, hres⟩ := Prod.mk.inj h
      obtain rfl := Except.ok.inj hres
      rw [hok] at halike
      obtain ⟨hcurrent, c₁, hc₁, hid⟩ := Engine.recompile_ok hok
      exact ⟨rfl, halike, hcurrent, c₁, (halike _ _).trans hc₁, hid⟩
  · simp at h

/-- Whatever is done, the lines are those of a program that runs. -/
theorem InStep.perform (h : s.InStep c) (op : Op) : ∃ c', (s.perform op).1.InStep c' := by
  rcases s.perform_cases op with ⟨lines, hperform⟩ | huntouched
  · rw [hperform]
    cases happly : s.apply lines with
    | mk s' r =>
        cases r with
        | ok c' => exact ⟨c', (apply_ok happly).2.2⟩
        | error err => exact ⟨c, (apply_error happly).inStep h⟩
  · exact ⟨c, huntouched.inStep h⟩

/-- A session in step stays in step, whatever is done. -/
theorem InStep.performAll (h : s.InStep c) (ops : List Op) :
    ∃ c', (s.performAll ops).InStep c' := by
  unfold Session.performAll
  induction ops generalizing s c with
  | nil => exact ⟨c, h⟩
  | cons op ops ih =>
      obtain ⟨c', hc'⟩ := h.perform op
      exact ih hc'

theorem coherent_apply (h : s.engine.Coherent) (lines : List String) :
    (s.apply lines).1.engine.Coherent := by
  have hengine := h.recompile (sourceOf lines)
  unfold apply
  split <;> next hres => rw [hres] at hengine; exact hengine

/-- The renderer runs the graph of the program, also after what is refused. -/
theorem coherent_perform (h : s.engine.Coherent) (op : Op) : (s.perform op).1.engine.Coherent := by
  rcases s.perform_cases op with ⟨lines, hperform⟩ | huntouched
  · rw [hperform, refusal_session]
    exact coherent_apply h lines
  · exact h.retains huntouched.current huntouched.exec

/-- Whatever is done, the renderer runs the graph of the program. -/
theorem coherent_performAll (h : s.engine.Coherent) (ops : List Op) :
    (s.performAll ops).engine.Coherent := by
  unfold Session.performAll
  induction ops generalizing s with
  | nil => exact h
  | cons op ops ih => exact ih (coherent_perform h op)

/-- A line that was added and dropped again leaves the lines and the plan of the program. -/
theorem InStep.undo_append (h : s.InStep c) {line : String} {added undone : Session β}
    {c₁ c₂ : Compiled} (hadd : s.append line = (added, .ok c₁))
    (hundo : added.undo = (undone, .ok c₂)) :
    undone.lines = s.lines ∧ undone.engine.current = some c₂ ∧ c₂.plan.id = c.plan.id := by
  obtain ⟨hlines, halike, -⟩ := apply_ok hadd
  unfold undo at hundo
  split at hundo
  · simp at hundo
  · obtain ⟨hdropped, halike', hstep⟩ := apply_ok hundo
    rw [hlines, List.dropLast_concat] at hdropped
    obtain ⟨c', hc', hid⟩ := h.compiles
    obtain ⟨c₂', hc₂', hid'⟩ := hstep.compiles
    rw [source, hdropped, (halike.trans halike') _ _] at hc₂'
    obtain rfl := Except.ok.inj (hc'.symm.trans hc₂')
    exact ⟨hdropped, hstep.current, hid'.symm.trans hid⟩

end Session

/-- The lines of a session are those of the program that runs.  From a first load that succeeds
on, and whatever is then done over a backend that may refuse any request, compiling the lines
gives the plan of the program, what is refused leaves the lines and the program, and a line
that is added and dropped again leaves the lines and the plan. -/
theorem lines_in_step {β : Type} [Backend β] {s₀ s₁ : Session β} {c₀ : Compiled}
    (hload : s₀.load = (s₁, .ok c₀)) (ops : List Session.Op) :
    let s := s₁.performAll ops
    (∃ c c', s.engine.current = some c ∧ s.engine.compile s.source [] = .ok c' ∧
      c'.plan.id = c.plan.id) ∧
    (∀ op err, (s.perform op).2 = some err →
      (s.perform op).1.lines = s.lines ∧ (s.perform op).1.engine.current = s.engine.current) ∧
    ∀ line, (s.perform (.eval line)).2 = none →
      ((s.perform (.eval line)).1.perform .undo).2 = none →
      ((s.perform (.eval line)).1.perform .undo).1.lines = s.lines ∧
        ((s.perform (.eval line)).1.perform .undo).1.engine.current.map (·.plan.id) =
          s.engine.current.map (·.plan.id) := by
  intro s
  obtain ⟨c, hstep⟩ := (Session.apply_ok hload).2.2.performAll ops
  refine ⟨?_, fun op err herr => ?_, fun line hadd hundo => ?_⟩
  · obtain ⟨c', hc', hid⟩ := hstep.compiles
    exact ⟨c, c', hstep.current, hc', hid⟩
  · have huntouched := Session.perform_error (Prod.ext rfl herr : s.perform op = (_, some err))
    exact ⟨huntouched.lines, huntouched.current⟩
  · obtain ⟨c₁, hadded⟩ := Session.eq_ok_of_refusal hadd
    obtain ⟨c₂, hundone⟩ := Session.eq_ok_of_refusal hundo
    obtain ⟨hlines, hcurrent, hid⟩ := hstep.undo_append hadded hundone
    refine ⟨hlines, ?_⟩
    show Option.map _ (Session.refusal _).1.engine.current = _
    rw [hstep.current, Option.map_some, ← hid]
    exact congrArg (Option.map (·.plan.id)) hcurrent

/-! ## a lamp that is veiled for a while -/

/-- The plan of a lamp alone. -/
def lampAlone : Plan :=
  { staged false [] [] ⟨2, 2⟩ with steps := (staged false [] [] ⟨2, 2⟩).steps.take 1 }

theorem compile_lampAlone :
    Plan.compile (Bytes.ofString "search s lamp()\n") stage {} = .ok lampAlone := by
  let tokens : List Token :=
    (stageTokens [] 15).take 5 ++ [⟨.endOfInput, Bytes.ofString "", ⟨2, 1⟩⟩]
  let program : Program := {
    search := ["s"]
    statements := [.run { calls := [{ name := "lamp", ns := { resolved := true, search := ["s"] },
                                      pos := ⟨1, 10⟩ }]
                          pos := ⟨1, 10⟩ } ⟨1, 10⟩] }
  have hscan : Token.scan (Bytes.ofString "search s lamp()\n") = .ok tokens := by
    rw [Bytes.ofString_ofList]
    decide +kernel
  have hparse : Program.ofTokens {} tokens = .ok program := by cbv
  exact Plan.compile_of_stages hscan hparse rfl

theorem compile_veiled : Plan.compile (Bytes.ofString "search s lamp()\n.veil()\n") stage {} =
    .ok (staged false [] [] ⟨2, 2⟩) := by
  let token (col : Nat) (kind : TokenKind) (word : String) : Token :=
    ⟨kind, Bytes.ofString word, ⟨2, col⟩⟩
  let tokens : List Token := (stageTokens [] 15).take 5 ++
    [token 1 .dot ".", token 2 .identifier "veil", token 6 .lparen "(", token 7 .rparen ")",
      ⟨.endOfInput, Bytes.ofString "", ⟨3, 1⟩⟩]
  have hscan : Token.scan (Bytes.ofString "search s lamp()\n.veil()\n") = .ok tokens := by
    rw [Bytes.ofString_ofList]
    decide +kernel
  have hparse : Program.ofTokens {} tokens = .ok (stageProgram [] ⟨2, 2⟩) := by cbv
  exact Plan.compile_of_stages hscan hparse rfl

namespace Session

/-- Lines with another plan than the running one are accepted when the renderer loads their
graph. -/
theorem apply_other {β : Type} [Backend β] {s : Session β} {lines : List String} {c : Compiled}
    {exec : Executor β} (hc : s.engine.compile (sourceOf lines) [] = .ok c)
    (hother : ∀ old, s.engine.current = some old → old.plan.id ≠ c.plan.id)
    (hload : s.engine.exec.load c.graph (some c.alloc) = (exec, none)) :
    s.apply lines = ({ engine := { s.engine with exec, current := some c }, lines }, .ok c) := by
  unfold apply
  rw [Engine.recompile_other hc hother hload]

open Engine (lantern)

/-- A program of the lantern. -/
def onStage (lines : List String) (plan : Plan) : Compiled where
  source := sourceOf lines
  plan
  graph := plan.expand lantern.library.catalog.lookup? []
  alloc := (plan.expand lantern.library.catalog.lookup? []).allocate
  generation := lantern.library.catalog.generation

/-- The lamp alone, and the lamp behind the veil. -/
def bareLamp : Compiled := onStage ["search s lamp()"] lampAlone

def veiledLamp : Compiled := onStage ["search s lamp()", ".veil()"] (staged false [] [] ⟨2, 2⟩)

/-- A session of the lantern whose program runs. -/
def lampSession (exec : Executor Recorder) (lines : List String) (c : Compiled) :
    Session Recorder where
  engine := { lantern with exec, current := some c }
  lines

/-- The renderer once it has loaded another program. -/
def loadedWith (exec : Executor Recorder) (c : Compiled) : Executor Recorder :=
  (exec.load c.graph (some c.alloc)).1

/-- The session of the lamp alone. -/
def bareSession : Session Recorder :=
  lampSession (loadedWith lantern.exec bareLamp) ["search s lamp()"] bareLamp

theorem load_bare :
    (Session.start lantern "search s lamp()").load = (bareSession, .ok bareLamp) := by
  have hlines : linesOf "search s lamp()" = ["search s lamp()"] := by decide +kernel
  have hstart : Session.start lantern "search s lamp()" =
      { engine := lantern, lines := ["search s lamp()"] } := by
    unfold Session.start
    rw [hlines]
  have hload : lantern.exec.load bareLamp.graph (some bareLamp.alloc) =
      (loadedWith lantern.exec bareLamp, none) :=
    Prod.ext rfl (by decide +kernel)
  rw [hstart]
  exact apply_other (Engine.compile_lenient compile_lampAlone rfl) (by simp [lantern]) hload

/-- The veil is drawn and taken off again. -/
theorem veil_session :
    bareSession.append ".veil()" =
      (lampSession (loadedWith (loadedWith lantern.exec bareLamp) veiledLamp) ["search s lamp()",
        ".veil()"] veiledLamp, .ok veiledLamp) ∧
    ∃ undone, (lampSession (loadedWith (loadedWith lantern.exec bareLamp) veiledLamp)
      ["search s lamp()", ".veil()"] veiledLamp).undo = (undone, .ok bareLamp) := by
  have hid : bareLamp.plan.id ≠ veiledLamp.plan.id := by decide +kernel
  have hveil : (loadedWith lantern.exec bareLamp).load veiledLamp.graph (some veiledLamp.alloc) =
      (loadedWith (loadedWith lantern.exec bareLamp) veiledLamp, none) :=
        Prod.ext rfl (by decide +kernel)
  have hbare : (loadedWith (loadedWith lantern.exec bareLamp) veiledLamp).load bareLamp.graph
      (some bareLamp.alloc) =
      (_, none) := Prod.ext rfl (by decide +kernel)
  refine ⟨apply_other (Engine.compile_lenient compile_veiled rfl) ?_ hveil, _,
    apply_other (Engine.compile_lenient compile_lampAlone rfl) ?_ hbare⟩
  · rintro old hold
    obtain rfl := Option.some.inj hold
    exact hid
  · rintro old hold
    obtain rfl := Option.some.inj hold
    exact hid.symm

end Session

open Session in
/-- With one line there is nothing to drop, and the program stays.  A veil changes the program;
when its line is dropped, the lines and the plan are those of the lamp alone. -/
theorem veil_comes_and_goes :
    (Session.start Engine.lantern "search s lamp()").load = (bareSession, .ok bareLamp) ∧
    (bareSession.perform .undo).2 = some .nothingToUndo ∧
    (bareSession.perform .undo).1.engine.current = bareSession.engine.current ∧
    (bareSession.perform (.eval ".veil()")).2 = none ∧
    (bareSession.perform (.eval ".veil()")).1.engine.current = some veiledLamp ∧
    ((bareSession.perform (.eval ".veil()")).1.perform .undo).2 = none ∧
    ((bareSession.perform (.eval ".veil()")).1.perform .undo).1.lines = ["search s lamp()"] ∧
    ((bareSession.perform (.eval ".veil()")).1.perform .undo).1.engine.current.map (·.plan.id) =
      some bareLamp.plan.id := by
  obtain ⟨-, herror, hundo⟩ := lines_in_step load_bare []
  obtain ⟨hadded, undone, hundone⟩ := veil_session
  have hveiled : bareSession.perform (.eval ".veil()") = (_, none) := congrArg refusal hadded
  have hdropped : (bareSession.perform (.eval ".veil()")).1.perform .undo = (undone, none) := by
    rw [hveiled]
    exact congrArg refusal hundone
  have hundo := hundo ".veil()" (congrArg Prod.snd hveiled) (congrArg Prod.snd hdropped)
  refine ⟨load_bare, rfl, (herror .undo .nothingToUndo rfl).2, congrArg Prod.snd hveiled, ?_,
    congrArg Prod.snd hdropped, hundo.1, hundo.2⟩
  rw [hveiled]
  rfl

end EffectChain
