import EffectChain.Proofs.Data.Table
import EffectChain.Proofs.Plan.Outline
import Mathlib.Data.List.Basic

/-!
# EffectChain.Proofs.Plan.Settled

A run of a program follows its outline: when every condition and count reads
settled variables and no jump depends on the frame, the tally of a run is the tally
of the outline (`tally_eq_outline`).

The survey goes through the text once, a run comes to a body never, once or many
times, so their variables differ; they agree on all that are not loose.
-/

namespace EffectChain

theorem Verdict.holds_constant (env : Env) (b : Bool) :
    (if b then Verdict.always else Verdict.never).holds env = b := by
  cases b <;> rfl

namespace Bindings

/-! ## agreement -/

/-- Two bindings give the same meaning to every name that is not loose. -/
def Agrees (loose : List String) (v w : Bindings) : Prop :=
  ∀ name, name ∉ loose → v.get? name = w.get? name

theorem Agrees.refl (loose : List String) (v : Bindings) : Agrees loose v v :=
  fun _ _ => rfl

theorem Agrees.symm {loose : List String} {v w : Bindings} (h : Agrees loose v w) :
    Agrees loose w v :=
  fun name hname => (h name hname).symm

theorem Agrees.trans {loose : List String} {u v w : Bindings} (h : Agrees loose u v)
    (h' : Agrees loose v w) : Agrees loose u w :=
  fun name hname => (h name hname).trans (h' name hname)

theorem Agrees.mono {loose more : List String} {v w : Bindings} (h : Agrees loose v w)
    (hsub : loose ⊆ more) : Agrees more v w :=
  fun name hname => h name fun hmem => hname (hsub hmem)

/-- Bindings that agree on the trail of an expression follow it to the same end. -/
theorem follow_agrees {loose : List String} {v w : Bindings} (h : Agrees loose v w) :
    ∀ (n : Nat) (e : Expr), (∀ name ∈ v.trail n e, name ∉ loose) → w.follow n e = v.follow n e := by
  intro n
  induction n with
  | zero => intro e _; cases e <;> rfl
  | succ n ih =>
    intro e hsettled
    cases e with
    | ident name pos =>
      have hname : v.get? name = w.get? name := h name (hsettled name (by simp [trail]))
      rw [follow, follow, ← hname]
      cases hv : v.get? name with
      | none => rfl
      | some e =>
        apply ih e
        intro x hx
        apply hsettled x
        simp [trail, hv, hx]
    | _ => rfl

/-- Bindings that agree on what an expression reads give it the same scalar. -/
theorem scalar?_agrees {loose : List String} {v w : Bindings} {e : Expr} (h : Agrees loose v w)
    (hreads : v.reads loose e = true) : w.scalar? e = v.scalar? e := by
  have hderef : w.deref e = v.deref e := by
    apply follow_agrees h
    intro name hname
    simpa using List.all_eq_true.1 hreads name hname
  unfold scalar? Checker.scalar
  rw [hderef]

theorem verdict_agrees {loose : List String} {v w : Bindings} {e : Expr} (h : Agrees loose v w)
    (hreads : v.reads loose e = true) : w.verdict e = v.verdict e := by
  rw [verdict, verdict, scalar?_agrees h hreads]

/-- A verdict says whether a condition holds, if need be with a look at the frame. -/
theorem holds_eq (vars : Bindings) (env : Env) (cond : Expr) :
    vars.holds env cond = (vars.verdict cond).holds env := by
  rw [holds, verdict]
  cases vars.scalar? cond with
  | none => rfl
  | some v =>
    cases v with
    | dynamic d => rfl
    | _ => exact (Verdict.holds_constant env _).symm

/-- Bindings that agree on what a count reads give it the same rounds. -/
theorem loop?_agrees {loose : List String} {v w : Bindings} {count : Option Expr}
    (h : Agrees loose v w) (hreads : count.all (v.reads loose) = true) :
    w.loop? count = v.loop? count := by
  cases count with
  | none => rfl
  | some e => rw [loop?, loop?, scalar?_agrees h hreads]

/-- A loop runs its count times its factor. -/
theorem rounds_eq (vars : Bindings) (env : Env) (count : Option Expr) :
    vars.rounds env count = ((vars.loop? count).map fun r => Part.roundsIn env r.1 r.2).getD 0 := by
  cases count with
  | none => rfl
  | some e =>
    rw [rounds, loop?]
    cases vars.scalar? e with
    | none => rfl
    | some v => cases v <;> simp [Part.roundsIn]

/-! ## binding -/

/-- Binding a name leaves every other name bound as it was. -/
theorem get?_bind_ne (vars : Bindings) {name other : String} (value : Expr) (h : other ≠ name) :
    (vars.bind name value).1.get? other = vars.get? other := by
  have hinsert : ∀ e, (Table.insert vars name e).get? other = vars.get? other := by
    intro e
    simp [h]
  unfold bind
  split
  · exact hinsert _
  · split <;> exact hinsert _
  · exact hinsert _
  · exact hinsert _

theorem expandCall_congr {v w : Bindings} {c : Call} (h : v.get? c.name = w.get? c.name) :
    v.expandCall c = w.expandCall c := by
  unfold expandCall
  rw [h]

/-- A chain expands by the bindings of its heads alone. -/
theorem expandChain_congr {v w : Bindings} {ch : Chain}
    (h : ∀ name ∈ (Expr.chain ch).heads, v.get? name = w.get? name) :
    v.expandChain ch = w.expandChain ch := by
  have hbase : v.expandBase ch = w.expandBase ch := by
    unfold expandBase
    cases hb : ch.base with
    | none => rfl
    | some base => simp only [h base (by simp [Expr.heads, hb])]
  unfold expandChain
  rw [hbase]
  apply List.foldl_ext
  intro r c hc
  have hc : v.get? c.name = w.get? c.name := by
    apply h
    simp only [Expr.heads, List.mem_append, List.mem_map]
    exact .inr ⟨c, hc, rfl⟩
  rw [expandCall_congr hc]

/-- A name is bound to the same in two bindings that give the same meaning to all
that is looked up. -/
theorem get?_bind_congr {v w : Bindings} {value : Expr} (name : String)
    (h : ∀ x ∈ value.heads, v.get? x = w.get? x) :
    (v.bind name value).1.get? name = (w.bind name value).1.get? name := by
  unfold bind
  cases value with
  | ident other pos => simp [h other (by simp [Expr.heads])]
  | call c =>
    simp only [expandCall_congr (h c.name (by simp [Expr.heads]))]
    split <;> simp
  | chain ch => simp [expandChain_congr h]
  | _ => simp

/-- Binding one name alike keeps the agreement, up to that name when it is loose. -/
theorem Agrees.bind {loose : List String} {v w : Bindings} (h : Agrees loose v w) (name : String)
    (value : Expr) :
    Agrees (rebound loose name value) (v.bind name value).1 (w.bind name value).1 := by
  intro x hx
  unfold rebound at hx
  by_cases hany : value.heads.any loose.contains
  · rw [if_pos hany] at hx
    have hne : x ≠ name := fun heq => hx (by simp [heq])
    rw [get?_bind_ne v value hne, get?_bind_ne w value hne]
    exact h x fun hmem => hx (List.mem_cons_of_mem _ hmem)
  · rw [if_neg hany] at hx
    by_cases hne : x = name
    · subst hne
      apply get?_bind_congr
      intro y hy
      apply h
      intro hmem
      exact hany (List.any_eq_true.2 ⟨y, hy, by simpa using hmem⟩)
    · rw [get?_bind_ne v value hne, get?_bind_ne w value hne]
      exact h x fun hmem => hx (List.mem_filter.2 ⟨hmem, by simpa using hne⟩)

end Bindings

/-! ## what a body leaves alone -/

open Bindings

theorem Survey.vars_ofLoop (n : Nat) (factor : Option Dynamic) (body : List Stmt)
    (loose : List String) (r : Survey) : (r.ofLoop n factor body loose).vars = r.vars := by
  unfold Survey.ofLoop
  split <;> rfl

mutual

/-- A survey changes only the names that are bound. -/
theorem Stmt.survey_frame (vars : Bindings) (loose : List String) (st : Stmt) :
    Agrees st.bound (st.survey vars loose).vars vars := by
  cases st with
  | bind name value pos =>
    intro x hx
    rw [Stmt.survey]
    exact get?_bind_ne vars value fun heq => hx (by simp [Stmt.bound, heq])
  | choose arms otherwise pos =>
    cases otherwise with
    | none =>
      rw [Stmt.survey]
      exact (Stmt.surveyArms_frame [] vars loose false _ [] arms
        fun v l held => Agrees.refl _ _).mono (by simp [Stmt.bound])
    | some body =>
      rw [Stmt.survey]
      refine Stmt.surveyArms_frame (Stmt.boundOf body) vars loose false _ _ arms ?_
      intro v l held
      have hbody := Stmt.surveyBlock_frame v l body
      cases held <;> exact hbody
  | repeated count body pos =>
    have hbody := Stmt.surveyBlock_frame vars (loose ++ Stmt.boundOf body) body
    rw [Stmt.survey]
    split
    · exact Agrees.refl _ _
    · exact Agrees.refl _ _
    · simp only [Survey.reading, Survey.vars_ofLoop]
      exact hbody
  | _ => exact Agrees.refl _ _

/-- A block changes only the bindings of the names it binds. -/
theorem Stmt.surveyBlock_frame (vars : Bindings) (loose : List String) (body : List Stmt) :
    Agrees (Stmt.boundOf body) (Stmt.surveyBlock vars loose body).vars vars := by
  cases body with
  | nil => exact Agrees.refl _ _
  | cons st rest =>
    have hst := Stmt.survey_frame vars loose st
    have hrest :=
      Stmt.surveyBlock_frame (st.survey vars loose).vars (st.survey vars loose).loose rest
    rw [Stmt.surveyBlock, Stmt.boundOf]
    split
    · exact (hrest.mono (by simp)).trans (hst.mono (by simp))
    · exact hst.mono (by simp)

/-- The arms of a choice change only the bindings of the names they bind. -/
theorem Stmt.surveyArms_frame (more : List String) (vars : Bindings) (loose : List String)
    (held : Bool) (otherwise : Bindings → List String → Bool → Survey) (last : List Chain)
    (arms : List Branch) (h : ∀ v l held, Agrees more (otherwise v l held).vars v) :
    Agrees (Stmt.boundOfArms arms ++ more)
      (Stmt.surveyArms vars loose held otherwise last arms).vars vars := by
  cases arms with
  | nil => exact h vars loose held
  | cons arm rest =>
    obtain ⟨cond, body, pos⟩ := arm
    have hbody := Stmt.surveyBlock_frame vars loose body
    have hrest := fun v l held => Stmt.surveyArms_frame more v l held otherwise last rest h
    rw [Stmt.surveyArms, Stmt.boundOfArms]
    split
    · exact ((hrest _ _ _).mono (by simp)).trans (hbody.mono (by simp))
    · cases held <;> exact hbody.mono (by simp)
    · exact (hrest _ _ _).mono (by simp)

end

/-- Rounds of a loop change only the names the body binds. -/
theorem Course.rounds_frame {body : Bindings → Course} {names : List String}
    (h : ∀ w, Agrees names (body w).vars w) (skipped : List Nat) :
    ∀ (n : Nat) (w : Bindings), Agrees names (Course.rounds body skipped n w).vars w := by
  intro n
  induction n with
  | zero => exact fun w => Agrees.refl _ _
  | succ n ih =>
    intro w
    rw [Course.rounds]
    cases (body w).flow with
    | leaveLoop => exact h w
    | finish => exact h w
    | onward => exact (ih _).trans (h w)
    | nextRound => exact (ih _).trans (h w)

mutual

/-- A run changes only the names that are bound. -/
theorem Stmt.exec_frame (env : Env) (w : Bindings) (st : Stmt) :
    Agrees st.bound (st.exec env w).vars w := by
  cases st with
  | bind name value pos =>
    intro x hx
    rw [Stmt.exec]
    exact get?_bind_ne w value fun heq => hx (by simp [Stmt.bound, heq])
  | choose arms otherwise pos =>
    cases otherwise with
    | none =>
      rw [Stmt.exec]
      exact (Stmt.execArms_frame [] env w _ [] arms (Agrees.refl _ _)).mono (by simp [Stmt.bound])
    | some body =>
      rw [Stmt.exec]
      exact Stmt.execArms_frame _ env w _ _ arms (Stmt.execBlock_frame env w body)
  | repeated count body pos =>
    rw [Stmt.exec]
    exact Course.rounds_frame (fun w => Stmt.execBlock_frame env w body) _ _ w
  | _ => exact Agrees.refl _ _

/-- Running a block changes only the bindings of the names it binds. -/
theorem Stmt.execBlock_frame (env : Env) (w : Bindings) (body : List Stmt) :
    Agrees (Stmt.boundOf body) (Stmt.execBlock env w body).vars w := by
  cases body with
  | nil => exact Agrees.refl _ _
  | cons st rest =>
    have hst := Stmt.exec_frame env w st
    have hrest := Stmt.execBlock_frame env (st.exec env w).vars rest
    rw [Stmt.execBlock, Stmt.boundOf]
    split
    · exact (hrest.mono (by simp)).trans (hst.mono (by simp))
    · exact hst.mono (by simp)

/-- Running the arms of a choice changes only the bindings of the names they bind. -/
theorem Stmt.execArms_frame (more : List String) (env : Env) (w : Bindings) (otherwise : Course)
    (last : List Chain) (arms : List Branch) (h : Agrees more otherwise.vars w) :
    Agrees (Stmt.boundOfArms arms ++ more) (Stmt.execArms env w otherwise last arms).vars w := by
  cases arms with
  | nil => exact h
  | cons arm rest =>
    obtain ⟨cond, body, pos⟩ := arm
    have hbody := Stmt.execBlock_frame env w body
    have hrest := Stmt.execArms_frame more env w otherwise last rest h
    rw [Stmt.execArms, Stmt.boundOfArms]
    split
    · exact hbody.mono (by simp)
    · exact hrest.mono (by simp)

end

/-! ## the chain statements of an outline -/

@[simp] theorem Part.chainsOf_append (ps qs : List Part) :
    Part.chainsOf (ps ++ qs) = Part.chainsOf ps ++ Part.chainsOf qs := by
  induction ps with
  | nil => rfl
  | cons p ps ih => simp [Part.chainsOf, ih]

@[simp] theorem Part.chainsOf_singleton (p : Part) : Part.chainsOf [p] = p.chains := by
  simp [Part.chainsOf]

@[simp] theorem Survey.chainsOf_between (before after : List Chain) (r : Survey) :
    Part.chainsOf (r.between before after).parts = before ++ Part.chainsOf r.parts ++ after := by
  simp [Survey.between, Part.chainsOf, Part.chains]

/-- Repeating a block keeps its chains. -/
theorem Survey.chainsOf_ofLoop (n : Nat) (factor : Option Dynamic) (body : List Stmt)
    (loose : List String) (r : Survey) :
    Part.chainsOf (r.ofLoop n factor body loose).parts = Part.chainsOf r.parts := by
  unfold Survey.ofLoop
  split <;> simp [Survey.perhaps, Part.chains]

mutual

/-- An outline has the chain statements of the text. -/
theorem Stmt.chainsOf_survey (vars : Bindings) (loose : List String) (st : Stmt) :
    Part.chainsOf (st.survey vars loose).parts = st.chains := by
  cases st with
  | run ch pos => simp [Stmt.survey, Stmt.chains, Part.chains]
  | choose arms otherwise pos =>
    cases otherwise with
    | none =>
      have harms := Stmt.chainsOf_surveyArms vars loose false
        (fun vars loose _ => { vars, loose }) [] arms fun v l held => rfl
      rw [Stmt.survey, harms, Stmt.chains, List.append_nil]
    | some body =>
      rw [Stmt.survey, Stmt.chains]
      apply Stmt.chainsOf_surveyArms
      intro v l held
      have hbody := Stmt.chainsOf_surveyBlock v l body
      cases held <;> exact hbody
  | repeated count body pos =>
    have hbody := Stmt.chainsOf_surveyBlock vars (loose ++ Stmt.boundOf body) body
    rw [Stmt.survey, Stmt.chains]
    split
    · simp [Part.chains]
    · simp [Part.chains]
    · simp only [Survey.reading, Survey.chainsOf_ofLoop]
      exact hbody
  | _ => rfl

/-- The survey of a block has the chains of the block, in order. -/
theorem Stmt.chainsOf_surveyBlock (vars : Bindings) (loose : List String) (body : List Stmt) :
    Part.chainsOf (Stmt.surveyBlock vars loose body).parts = Stmt.chainsOf body := by
  cases body with
  | nil => rfl
  | cons st rest =>
    have hst := Stmt.chainsOf_survey vars loose st
    have hrest :=
      Stmt.chainsOf_surveyBlock (st.survey vars loose).vars (st.survey vars loose).loose rest
    rw [Stmt.surveyBlock, Stmt.chainsOf]
    split
    · simp [hst, hrest]
    · simp [hst, Part.chains]

/-- The survey of a choice has the chains of all its arms, in order. -/
theorem Stmt.chainsOf_surveyArms (vars : Bindings) (loose : List String) (held : Bool)
    (otherwise : Bindings → List String → Bool → Survey) (last : List Chain) (arms : List Branch)
    (h : ∀ v l held, Part.chainsOf (otherwise v l held).parts = last) :
    Part.chainsOf (Stmt.surveyArms vars loose held otherwise last arms).parts =
      Stmt.chainsOfArms arms ++ last := by
  cases arms with
  | nil => exact h vars loose held
  | cons arm rest =>
    obtain ⟨cond, body, pos⟩ := arm
    have hbody := Stmt.chainsOf_surveyBlock vars loose body
    have hrest := fun v l held => Stmt.chainsOf_surveyArms v l held otherwise last rest h
    rw [Stmt.surveyArms, Stmt.chainsOfArms]
    split
    · simp [Part.chains, hbody, hrest]
    · cases held <;> simp [Survey.reading, Survey.underHold, Survey.perhaps, hbody]
    · simp [Survey.reading, hrest]

end

/-! ## jumps -/

mutual

/-- Only a jump leaves a statement. -/
theorem Stmt.flow_survey (vars : Bindings) (loose : List String) (st : Stmt)
    (h : st.jumps = false) : (st.survey vars loose).flow = .onward := by
  cases st with
  | choose arms otherwise pos =>
    cases otherwise with
    | none =>
      rw [Stmt.jumps] at h
      rw [Stmt.survey]
      exact Stmt.flow_surveyArms _ _ _ _ _ arms h fun v l held => rfl
    | some body =>
      rw [Stmt.jumps, Bool.or_eq_false_iff] at h
      rw [Stmt.survey]
      apply Stmt.flow_surveyArms _ _ _ _ _ arms h.1
      intro v l held
      have hbody := Stmt.flow_surveyBlock v l body h.2
      cases held
      · exact hbody
      · rfl
  | repeated count body pos =>
    rw [Stmt.jumps] at h
    have hbody := Stmt.flow_surveyBlock vars (loose ++ Stmt.boundOf body) body h
    rw [Stmt.survey]
    split
    · rfl
    · rfl
    · unfold Survey.reading Survey.ofLoop
      simp only [hbody]
      split <;> simp_all [Survey.perhaps]
  | bind name value pos => rfl
  | run ch pos => rfl
  | leaveLoop pos => simp [Stmt.jumps] at h
  | nextRound pos => simp [Stmt.jumps] at h
  | finish pos => simp [Stmt.jumps] at h

/-- A block without jumps runs to its end. -/
theorem Stmt.flow_surveyBlock (vars : Bindings) (loose : List String) (body : List Stmt)
    (h : Stmt.jumpsIn body = false) : (Stmt.surveyBlock vars loose body).flow = .onward := by
  cases body with
  | nil => rfl
  | cons st rest =>
    rw [Stmt.jumpsIn, Bool.or_eq_false_iff] at h
    have hst := Stmt.flow_survey vars loose st h.1
    rw [Stmt.surveyBlock, if_pos hst]
    exact Stmt.flow_surveyBlock _ _ rest h.2

/-- Arms without jumps run to their ends. -/
theorem Stmt.flow_surveyArms (vars : Bindings) (loose : List String) (held : Bool)
    (otherwise : Bindings → List String → Bool → Survey) (last : List Chain) (arms : List Branch)
    (h : Stmt.jumpsInArms arms = false) (ho : ∀ v l held, (otherwise v l held).flow = .onward) :
    (Stmt.surveyArms vars loose held otherwise last arms).flow = .onward := by
  cases arms with
  | nil => exact ho vars loose held
  | cons arm rest =>
    obtain ⟨cond, body, pos⟩ := arm
    rw [Stmt.jumpsInArms, Bool.or_eq_false_iff] at h
    have hbody := Stmt.flow_surveyBlock vars loose body h.1
    have hrest := fun v l held => Stmt.flow_surveyArms v l held otherwise last rest h.2 ho
    rw [Stmt.surveyArms]
    split
    · exact hrest _ _ _
    · cases held
      · exact hbody
      · rfl
    · exact hrest _ _ _

end

/-! ## arms the frame decides on -/

/-- A body that runs only in some frames: it goes on, and what it binds is loose
after it. -/
structure Survey.Held (vars : Bindings) (loose : List String) (r : Survey) : Prop where
  flow : r.flow = .onward
  loose : loose ⊆ r.loose
  vars : Agrees r.loose r.vars vars

/-- A block that may not run is held, with the names it binds loose. -/
theorem Survey.held_perhaps {vars : Bindings} (loose : List String) (body : List Stmt) {r : Survey}
    (h : Agrees (Stmt.boundOf body) r.vars vars) : Held vars loose (r.perhaps body loose) where
  flow := rfl
  loose := by simp [Survey.perhaps]
  vars := h.mono (by simp [Survey.perhaps])

/-- Once the frame decides on an arm, it decides on all that follow. -/
theorem Stmt.held_surveyArms (otherwise : Bindings → List String → Bool → Survey)
    (last : List Chain) (ho : ∀ v l, Survey.Held v l (otherwise v l true)) :
    ∀ (arms : List Branch) (vars : Bindings) (loose : List String),
      Survey.Held vars loose (Stmt.surveyArms vars loose true otherwise last arms) := by
  intro arms
  induction arms with
  | nil => exact ho
  | cons arm rest ih =>
    intro vars loose
    obtain ⟨cond, body, pos⟩ := arm
    have hbody := Stmt.surveyBlock_frame vars loose body
    rw [Stmt.surveyArms]
    split
    · obtain ⟨hflow, hloose, hvars⟩ :=
        ih (Stmt.surveyBlock vars loose body).vars (loose ++ Stmt.boundOf body)
      refine ⟨hflow, fun x hx => hloose (by simp [hx]), ?_⟩
      exact hvars.trans (hbody.mono fun x hx => hloose (by simp [hx]))
    · obtain ⟨hflow, hloose, hvars⟩ := Survey.held_perhaps loose body hbody
      exact ⟨hflow, hloose, hvars⟩
    · obtain ⟨hflow, hloose, hvars⟩ := ih vars loose
      exact ⟨hflow, hloose, hvars⟩

/-! ## tallies -/

@[simp] theorem idleTally_append (as bs : List Chain) :
    idleTally (as ++ bs) = idleTally as ++ idleTally bs := by
  simp [idleTally]

@[simp] theorem Part.tallyOf_append (env : Env) (ps qs : List Part) :
    Part.tallyOf env (ps ++ qs) = Part.tallyOf env ps ++ Part.tallyOf env qs := by
  induction ps with
  | nil => rfl
  | cons p ps ih => simp [Part.tallyOf, ih]

@[simp] theorem Part.tallyOf_singleton (env : Env) (p : Part) :
    Part.tallyOf env [p] = p.tally env := by
  simp [Part.tallyOf]

@[simp] theorem Survey.tallyOf_between (env : Env) (before after : List Chain) (r : Survey) :
    Part.tallyOf env (r.between before after).parts =
      idleTally before ++ Part.tallyOf env r.parts ++ idleTally after := by
  simp [Survey.between, Part.tallyOf, Part.tally]

mutual

/-- A part has one entry in the tally for each chain statement. -/
theorem Part.length_tally (env : Env) (p : Part) : (p.tally env).length = p.chains.length := by
  cases p with
  | idle chains => simp [Part.tally, Part.chains, idleTally]
  | run ch vars => rfl
  | choose test yes no =>
    have hyes := Part.length_tallyOf env yes
    have hno := Part.length_tallyOf env no
    rw [Part.tally, Part.chains]
    split <;> simp [hyes, hno, idleTally]
  | repeated count factor body =>
    have hbody := Part.length_tallyOf env body
    simp [Part.tally, Part.chains, hbody]

/-- Every chain is counted once. -/
theorem Part.length_tallyOf (env : Env) (ps : List Part) :
    (Part.tallyOf env ps).length = (Part.chainsOf ps).length := by
  cases ps with
  | nil => rfl
  | cons p ps =>
    have hp := Part.length_tally env p
    have hps := Part.length_tallyOf env ps
    simp [Part.tallyOf, Part.chainsOf, hp, hps]

end

/-- The tally of a loop that does not run. -/
theorem Part.map_zero_tallyOf (env : Env) (ps : List Part) :
    (Part.tallyOf env ps).map (0 * ·) = idleTally (Part.chainsOf ps) := by
  have hlen := Part.length_tallyOf env ps
  simp [idleTally, List.map_const', hlen]

/-- A loop whose body goes on in every round runs it as often as it says. -/
theorem Course.rounds_onward {body : Bindings → Course} {P : Bindings → Prop} {t skipped : List Nat}
    (hskipped : skipped = t.map (0 * ·))
    (hbody : ∀ w, P w → (body w).tally = t ∧ P (body w).vars ∧
      ((body w).flow = .onward ∨ (body w).flow = .nextRound)) :
    ∀ (n : Nat) (w : Bindings), P w →
      (Course.rounds body skipped n w).tally = t.map (n * ·) ∧
      (Course.rounds body skipped n w).flow = .onward ∧
      (0 < n → ∃ w', P w' ∧ (Course.rounds body skipped n w).vars = (body w').vars) := by
  intro n
  induction n with
  | zero => exact fun w _ => ⟨hskipped, rfl, fun h => absurd h (by omega)⟩
  | succ n ih =>
    intro w hw
    obtain ⟨htally, hnext, hflow⟩ := hbody w hw
    obtain ⟨htallies, honward, hvars⟩ := ih _ hnext
    have hstep : Course.rounds body skipped (n + 1) w =
        { Course.rounds body skipped n (body w).vars with
          tally := List.zipWith (· + ·) (body w).tally
            (Course.rounds body skipped n (body w).vars).tally } := by
      rw [Course.rounds]
      rcases hflow with h | h <;> simp only [h]
    rw [hstep]
    refine ⟨?_, honward, fun _ => ?_⟩
    · simp only [htally, htallies, List.zipWith_map_right]
      rw [List.zipWith_self]
      apply List.map_congr_left
      intro x _
      rw [Nat.succ_mul, Nat.add_comm]
    · cases n with
      | zero => exact ⟨w, hw, rfl⟩
      | succ n => exact hvars (by omega)

/-! ## runs follow their outline -/

/-- A run does what a survey says: it agrees on the variables that are not loose, it
is left the same way, and it has the tally of the outline. -/
structure Course.Follows (env : Env) (r : Survey) (o : Course) : Prop where
  vars : Agrees r.loose r.vars o.vars
  flow : o.flow = r.flow
  tally : o.tally = Part.tallyOf env r.parts

open Course (Follows)

/-- A run of a loop follows the survey of the loop when every round follows the
survey of the body. -/
theorem Survey.follows_ofLoop {env : Env} {vars : Bindings} {loose : List String}
    {stmts : List Stmt} {r : Survey} {body : Bindings → Course} {n : Nat} {factor : Option Dynamic}
    {w : Bindings} (hn : 0 < n) (h : Agrees loose vars w)
    (hframe : ∀ w, Agrees (Stmt.boundOf stmts) (body w).vars w)
    (hvars : Agrees (Stmt.boundOf stmts) r.vars vars)
    (hchains : Part.chainsOf r.parts = Stmt.chainsOf stmts)
    (hround : ∀ w, Agrees (loose ++ Stmt.boundOf stmts) vars w → Follows env r (body w))
    (hjump : factor.isSome → r.flow = .onward) :
    Follows env (r.ofLoop n factor stmts loose)
      (Course.rounds body (idleTally (Stmt.chainsOf stmts)) (Part.roundsIn env n factor) w) := by
  have hw : Agrees (loose ++ Stmt.boundOf stmts) vars w := h.mono (by simp)
  have hskipped : idleTally (Stmt.chainsOf stmts) = (Part.tallyOf env r.parts).map (0 * ·) := by
    rw [Part.map_zero_tallyOf, hchains]
  have hrounds := fun (hflow : r.flow = .onward ∨ r.flow = .nextRound) (n : Nat) =>
    Course.rounds_onward (P := Agrees (loose ++ Stmt.boundOf stmts) vars) hskipped
      (fun w hw => ⟨(hround w hw).tally,
        hw.trans ((hframe w).mono (by simp)).symm,
        by rw [(hround w hw).flow]; exact hflow⟩) n w hw
  cases factor with
  | some d =>
    obtain ⟨htally, hflow, -⟩ := hrounds (.inl (hjump rfl)) (Part.roundsIn env n (some d))
    have hout := Course.rounds_frame hframe (idleTally (Stmt.chainsOf stmts))
      (Part.roundsIn env n (some d)) w
    refine ⟨?_, hflow, ?_⟩
    · show Agrees (loose ++ Stmt.boundOf stmts) r.vars _
      exact ((hvars.mono (by simp)).trans hw).trans (hout.mono (by simp)).symm
    · simp [htally, Survey.ofLoop, Survey.perhaps, Part.tally]
  | none =>
    obtain ⟨hagree, hflow, htally⟩ := hround w hw
    have hstart : Part.roundsIn env n none = n := rfl
    rw [hstart]
    cases hr : r.flow with
    | leaveLoop =>
      obtain ⟨m, rfl⟩ : ∃ m, n = m + 1 := ⟨n - 1, by omega⟩
      simp only [Survey.ofLoop, Course.rounds, hflow, hr]
      exact ⟨hagree, rfl, htally⟩
    | finish =>
      obtain ⟨m, rfl⟩ : ∃ m, n = m + 1 := ⟨n - 1, by omega⟩
      simp only [Survey.ofLoop, Course.rounds, hflow, hr]
      exact ⟨hagree, hflow, htally⟩
    | onward =>
      obtain ⟨htallies, honward, hlast⟩ := hrounds (.inl hr) n
      obtain ⟨w', hw', heq⟩ := hlast hn
      simp only [Survey.ofLoop, hr]
      refine ⟨?_, honward, by simp [htallies, Part.tally, Part.roundsIn]⟩
      rw [heq]
      exact (hround w' hw').vars
    | nextRound =>
      obtain ⟨htallies, honward, hlast⟩ := hrounds (.inr hr) n
      obtain ⟨w', hw', heq⟩ := hlast hn
      simp only [Survey.ofLoop, hr]
      refine ⟨?_, honward, by simp [htallies, Part.tally, Part.roundsIn]⟩
      rw [heq]
      exact (hround w' hw').vars

theorem Survey.settled_underHold (held : Bool) (body : List Stmt) (loose : List String)
    (r : Survey) :
    (r.underHold held body loose).settled = r.settled := by
  cases held <;> rfl

/-- A run of a body follows its survey, also where the frame decides whether it
comes to the body: then there is no jump in it. -/
theorem Survey.follows_underHold {env : Env} {vars w : Bindings} {loose : List String} {held : Bool}
    {body : List Stmt} {r : Survey} {o : Course} (h : Agrees loose vars w)
    (hvars : Agrees (Stmt.boundOf body) r.vars vars) (hrun : Agrees (Stmt.boundOf body) o.vars w)
    (hjumps : Stmt.jumpsIn body = false → r.flow = .onward)
    (hplain : (r.underHold held body loose).plain = true)
    (hfollows : r.plain = true → Follows env r o) :
    Follows env (r.underHold held body loose) o := by
  cases held with
  | false => exact hfollows hplain
  | true =>
    have hp : r.plain = true ∧ Stmt.jumpsIn body = false := by
      simpa [Survey.underHold, Survey.perhaps] using hplain
    have hbody := hfollows hp.1
    refine ⟨?_, hbody.flow.trans (hjumps hp.2), hbody.tally⟩
    show Agrees (loose ++ Stmt.boundOf body) r.vars o.vars
    exact ((hvars.mono (by simp)).trans (h.mono (by simp))).trans (hrun.mono (by simp)).symm

/-- A held block is plain only if it is plain itself. -/
theorem Survey.plain_of_underHold {held : Bool} {body : List Stmt} {loose : List String}
    {r : Survey} (h : (r.underHold held body loose).plain = true) : r.plain = true := by
  cases held with
  | false => exact h
  | true =>
    simp only [Survey.underHold, Survey.perhaps, if_true, Bool.and_eq_true] at h
    exact h.1

/-- A loop is plain only if its body is, and has no jump when the count is dynamic. -/
theorem Survey.plain_ofLoop {n : Nat} {factor : Option Dynamic} {body : List Stmt}
    {loose : List String} {r : Survey} (h : (r.ofLoop n factor body loose).plain = true) :
    r.plain = true ∧ (factor.isSome → Stmt.jumpsIn body = false) := by
  unfold Survey.ofLoop at h
  split at h <;> simp_all [Survey.perhaps]

theorem Survey.settled_ofLoop (n : Nat) (factor : Option Dynamic) (body : List Stmt)
    (loose : List String) (r : Survey) : (r.ofLoop n factor body loose).settled = r.settled := by
  unfold Survey.ofLoop
  split <;> rfl

/-- The arms after one the frame decides on, in a frame that takes it. -/
theorem Survey.Held.follows_taken {vars w after : Bindings} {loose names : List String}
    {mid : Bindings} {no : Survey} (hheld : no.Held mid (loose ++ names))
    (hmid : Agrees names mid vars) (h : Agrees loose vars w) (hafter : Agrees names after w) :
    Agrees no.loose no.vars after := by
  have hloose : loose ⊆ no.loose := fun x hx => hheld.loose (by simp [hx])
  have hnames : names ⊆ no.loose := fun x hx => hheld.loose (by simp [hx])
  exact ((hheld.vars.trans (hmid.mono hnames)).trans (h.mono hloose)).trans
    (hafter.mono hnames).symm

mutual

/-- A run of a statement follows its survey. -/
theorem Stmt.exec_follows (env : Env) (vars : Bindings) (loose : List String) (w : Bindings)
    (st : Stmt) (h : Agrees loose vars w) (hplain : (st.survey vars loose).plain = true)
    (hsettled : (st.survey vars loose).settled = true) :
    Follows env (st.survey vars loose) (st.exec env w) := by
  cases st with
  | bind name value pos =>
    rw [Stmt.survey, Stmt.exec]
    exact ⟨h.bind name value, rfl, rfl⟩
  | run ch pos => exact ⟨h, rfl, rfl⟩
  | choose arms otherwise pos =>
    cases otherwise with
    | none =>
      rw [Stmt.survey] at hplain hsettled ⊢
      rw [Stmt.exec]
      apply Stmt.execArms_follows env vars loose false w _ _ [] arms h hplain hsettled
      · exact fun v l held => rfl
      · exact fun v l => ⟨rfl, fun x hx => hx, Agrees.refl _ _⟩
      · exact fun v l held hv _ _ => ⟨hv, rfl, rfl⟩
    | some body =>
      rw [Stmt.survey] at hplain hsettled ⊢
      rw [Stmt.exec]
      apply Stmt.execArms_follows env vars loose false w _ _ _ arms h hplain hsettled
      · intro v l held
        have hbody := Stmt.chainsOf_surveyBlock v l body
        cases held <;> exact hbody
      · exact fun v l => Survey.held_perhaps l body (Stmt.surveyBlock_frame v l body)
      · intro v l held hv hp hs
        rw [Survey.settled_underHold] at hs
        exact Survey.follows_underHold hv (Stmt.surveyBlock_frame v l body)
          (Stmt.execBlock_frame env w body) (Stmt.flow_surveyBlock v l body) hp
          fun hbody => Stmt.execBlock_follows env v l w body hv hbody hs
  | repeated count body pos =>
    rw [Stmt.survey] at hplain hsettled ⊢
    rw [Stmt.exec, Bindings.rounds_eq]
    cases hloop : vars.loop? count with
    | none =>
      simp only [hloop] at hsettled ⊢
      rw [Bindings.loop?_agrees h hsettled, hloop]
      exact ⟨h, rfl, by simp [Course.rounds, Part.tally]⟩
    | some r =>
      obtain ⟨n, factor⟩ := r
      by_cases hn : n = 0
      · subst hn
        simp only [hloop] at hsettled ⊢
        rw [Bindings.loop?_agrees h hsettled, hloop]
        have hzero : Part.roundsIn env 0 factor = 0 := by cases factor <;> simp [Part.roundsIn]
        simp only [Option.map_some, Option.getD_some, hzero]
        exact ⟨h, rfl, by simp [Course.rounds, Part.tally]⟩
      · simp only [hloop, Survey.reading, Survey.settled_ofLoop, Bool.and_eq_true]
          at hplain hsettled ⊢
        obtain ⟨hp, hjumps⟩ := Survey.plain_ofLoop hplain
        rw [Bindings.loop?_agrees h hsettled.1, hloop]
        obtain ⟨hvars, hflow, htally⟩ := Survey.follows_ofLoop (Nat.pos_of_ne_zero hn) h
          (fun w => Stmt.execBlock_frame env w body) (Stmt.surveyBlock_frame vars _ body)
          (Stmt.chainsOf_surveyBlock vars _ body)
          (fun w' hw' => Stmt.execBlock_follows env vars _ w' body hw' hp hsettled.2)
          (fun hsome => Stmt.flow_surveyBlock vars _ body (hjumps hsome))
        exact ⟨hvars, hflow, htally⟩
  | leaveLoop pos => exact ⟨h, rfl, rfl⟩
  | nextRound pos => exact ⟨h, rfl, rfl⟩
  | finish pos => exact ⟨h, rfl, rfl⟩

/-- A plain, settled block runs as its survey says. -/
theorem Stmt.execBlock_follows (env : Env) (vars : Bindings) (loose : List String) (w : Bindings)
    (body : List Stmt) (h : Agrees loose vars w)
    (hplain : (Stmt.surveyBlock vars loose body).plain = true)
    (hsettled : (Stmt.surveyBlock vars loose body).settled = true) :
    Follows env (Stmt.surveyBlock vars loose body) (Stmt.execBlock env w body) := by
  cases body with
  | nil => exact ⟨h, rfl, rfl⟩
  | cons st rest =>
    rw [Stmt.surveyBlock] at hplain hsettled ⊢
    rw [Stmt.execBlock]
    by_cases hflow : (st.survey vars loose).flow = .onward
    · simp only [hflow, if_true, Bool.and_eq_true] at hplain hsettled ⊢
      have hst := Stmt.exec_follows env vars loose w st h hplain.1 hsettled.1
      have hrest := Stmt.execBlock_follows env _ _ _ rest hst.vars hplain.2 hsettled.2
      simp only [hst.flow, hflow, if_true]
      exact ⟨hrest.vars, hrest.flow, by simp [hst.tally, hrest.tally]⟩
    · simp only [hflow, if_false] at hplain hsettled ⊢
      have hst := Stmt.exec_follows env vars loose w st h hplain hsettled
      simp only [hst.flow, hflow, if_false]
      exact ⟨hst.vars, rfl, by simp [hst.tally, Part.tally]⟩

/-- The arms of a plain, settled choice run as their survey says. -/
theorem Stmt.execArms_follows (env : Env) (vars : Bindings) (loose : List String) (held : Bool)
    (w : Bindings) (otherwise : Bindings → List String → Bool → Survey) (run : Course)
    (last : List Chain) (arms : List Branch) (h : Agrees loose vars w)
    (hplain : (Stmt.surveyArms vars loose held otherwise last arms).plain = true)
    (hsettled : (Stmt.surveyArms vars loose held otherwise last arms).settled = true)
    (hchains : ∀ v l held, Part.chainsOf (otherwise v l held).parts = last)
    (hheld : ∀ v l, Survey.Held v l (otherwise v l true))
    (hrun : ∀ v l held, Agrees l v w → (otherwise v l held).plain = true →
      (otherwise v l held).settled = true → Follows env (otherwise v l held) run) :
    Follows env (Stmt.surveyArms vars loose held otherwise last arms)
      (Stmt.execArms env w run last arms) := by
  cases arms with
  | nil => exact hrun vars loose held h hplain hsettled
  | cons arm rest =>
    obtain ⟨cond, body, pos⟩ := arm
    rw [Stmt.surveyArms] at hplain hsettled ⊢
    rw [Stmt.execArms, Bindings.holds_eq]
    have hrest := fun v l held hv hp hs =>
      Stmt.execArms_follows env v l held w otherwise run last rest hv hp hs hchains hheld hrun
    cases hverdict : vars.verdict cond with
    | perFrame d =>
      simp only [hverdict, Bool.and_eq_true, Bool.not_eq_true'] at hplain hsettled ⊢
      rw [Bindings.verdict_agrees h hsettled.1.1, hverdict]
      have hframe := Stmt.surveyBlock_frame vars loose body
      by_cases htest : (d.eval env).truthy
      · have hbody := Stmt.execBlock_follows env vars loose w body h hplain.1.1 hsettled.1.2
        have hno := Stmt.held_surveyArms otherwise last hheld rest
          (Stmt.surveyBlock vars loose body).vars (loose ++ Stmt.boundOf body)
        have hjumps := Stmt.flow_surveyBlock vars loose body hplain.1.2
        simp only [Verdict.holds, htest, if_true]
        refine ⟨hno.follows_taken hframe h (Stmt.execBlock_frame env w body), ?_, ?_⟩
        · rw [hbody.flow, hjumps]
          exact hno.flow.symm
        · simp [htest, hbody.tally, Part.tally, Stmt.chainsOf_surveyArms _ _ _ _ _ rest hchains]
      · have hmid : Agrees (loose ++ Stmt.boundOf body) (Stmt.surveyBlock vars loose body).vars w :=
          (hframe.mono (by simp)).trans (h.mono (by simp))
        obtain ⟨hvars, hflow, htally⟩ := hrest _ _ true hmid hplain.2 hsettled.2
        simp only [Verdict.holds, htest]
        refine ⟨hvars, hflow, ?_⟩
        simp [htest, htally, Part.tally, Stmt.chainsOf_surveyBlock]
    | always =>
      simp only [hverdict, Survey.reading, Bool.and_eq_true] at hplain hsettled ⊢
      rw [Bindings.verdict_agrees h hsettled.1, hverdict]
      have hbody := Survey.follows_underHold h (Stmt.surveyBlock_frame vars loose body)
        (Stmt.execBlock_frame env w body) (Stmt.flow_surveyBlock vars loose body) hplain
        fun hp => Stmt.execBlock_follows env vars loose w body h hp
          (by rw [← Survey.settled_underHold held]; exact hsettled.2)
      obtain ⟨hvars, hflow, htally⟩ := hbody
      refine ⟨hvars, hflow, ?_⟩
      simp [Verdict.holds, htally, idleTally]
    | never =>
      simp only [hverdict, Survey.reading, Bool.and_eq_true] at hplain hsettled ⊢
      rw [Bindings.verdict_agrees h hsettled.1, hverdict]
      obtain ⟨hvars, hflow, htally⟩ := hrest vars loose held h hplain hsettled.2
      exact ⟨hvars, hflow, by simp [Verdict.holds, htally, idleTally]⟩

end

/-- The tally of a run is the tally of the outline. -/
theorem Program.tally_eq_outline (p : Program) (env : Env) (hplain : p.survey.plain = true)
    (hsettled : p.survey.settled = true) : p.tally env = Part.tallyOf env p.survey.parts :=
  (Stmt.execBlock_follows env {} [] {} p.statements (Agrees.refl _ _) hplain hsettled).tally

end EffectChain
