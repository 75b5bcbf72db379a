import EffectChain.Proofs.Plan.Overriding
import EffectChain.Proofs.Plan.Wrapping

/-!
# EffectChain.Proofs.Plan.Roundtrip

Plans that are written as programs and read again.

The steps of a chain statement are one tree, whose root is its last step (`Grown.forest`), so
the steps that no step takes are the ends of the chain statements, and each of them is written
on a line of its own (`Grown.line`).  The lines, in their blocks, are read as statements that
come to the steps once more (`Sliced.phrase_body`), and such steps are written as the same text
(`Printer.text_of_remade`).

* `Plan.source_roundtrip` — a plan that can be read again is written as a program with the same
  plan, but for where its steps were written and the text of its negated conditions.
-/

namespace EffectChain

open EffectChain.Lexer Emitted Surroundings
open EffectChain.Parser (IsBlock IsStmt Denotes IsEnd)

variable {k : Checker} {base : Nat} {gs : List Dynamic} {r : Repeat} {steps roots : List Step}

/-! ## steps that end chains -/

namespace Forest

theorem sublist (h : Forest base steps roots) : roots.Sublist steps := by
  induction h with
  | nil => exact .refl _
  | snoc _ _ _ _ _ ih => exact ((List.sublist_append_left _ _).trans ih).append_right _

/-- The steps that no step takes are the roots. -/
theorem filter_unused (h : Forest base steps roots) :
    (steps.filter fun st => !(steps.flatMap Step.uses).contains st.temp) = roots := by
  have hpick : ∀ {xs ys : List Step}, ys.Sublist xs → (xs.map Step.temp).Nodup →
      (xs.filter fun st => decide (st.temp ∈ ys.map Step.temp)) = ys := by
    intro xs ys hsub
    induction hsub with
    | slnil => exact fun _ => rfl
    | @cons ys xs x hsub ih =>
      intro hnodup
      obtain ⟨hx, hnodup⟩ := List.nodup_cons.1 hnodup
      rw [List.filter_cons_of_neg, ih hnodup]
      simpa using fun y hy heq => hx (List.mem_map.2 ⟨y, hsub.subset hy, heq⟩)
    | @cons_cons ys xs x hsub ih =>
      intro hnodup
      obtain ⟨hx, hnodup⟩ := List.nodup_cons.1 hnodup
      rw [List.filter_cons_of_pos (by simp)]
      refine congrArg (x :: ·) ((List.filter_congr fun st hst => ?_).trans (ih hnodup))
      have hne : st.temp ≠ x.temp := fun heq => hx (List.mem_map.2 ⟨st, hst, heq⟩)
      simp [hne]
  have hnodup : (steps.flatMap Step.uses ++ roots.map Step.temp).Nodup :=
    h.taken_or_root.nodup_iff.2 List.nodup_range'
  refine Eq.trans (List.filter_congr fun st hst => ?_)
    (hpick h.sublist (h.temps ▸ List.nodup_range'))
  have hmem : st.temp ∈ steps.flatMap Step.uses ++ roots.map Step.temp :=
    h.taken_or_root.mem_iff.2 (h.temps ▸ List.mem_map_of_mem hst)
  rw [List.mem_append] at hmem
  have hdisjoint := (List.nodup_append.1 hnodup).2.2
  by_cases htaken : st.temp ∈ steps.flatMap Step.uses
  · have hroot : st.temp ∉ roots.map Step.temp := fun hroot => hdisjoint _ htaken _ hroot rfl
    rw [List.contains_iff_mem.2 htaken, decide_eq_false hroot]
    rfl
  · rw [decide_eq_true (hmem.resolve_left htaken)]
    simpa using htaken

end Forest

theorem Printer.consumed_eq (p : Plan) : consumed p = p.steps.flatMap Step.uses := by
  refine congrArg (p.steps.flatMap ·) (funext fun st => congrArg (st.source.toList ++ ·) ?_)
  refine List.filterMap_congr fun v _ => ?_
  match v with
  | .ref ⟨kind, n⟩ => cases kind <;> rfl
  | .scalar _ | .boolean _ | .text _ | .vector _ _ | .dynamic _ => rfl

/-- What is written for arguments is not taken from a step unless it is a chain. -/
theorem Value.Came.temp?_eq {a : ArgSpec} {v : Value} (h : v.Came a) : v.temp? = none := by
  cases v with
  | ref o =>
    obtain ⟨-, ho⟩ := h.bears
    exact temp?_ref ho.kind
  | _ => rfl

/-- The results among the values that are put in are those among what is written. -/
theorem Checker.fill_results {written : List (ArgSpec × Option Value)}
    (hnodup : (written.map (·.1.name)).Nodup) (r : Table Value × List String)
    (hfresh : ∀ w ∈ written, r.1.get? w.1.name = none) :
    ((written.foldl k.fill r).1.values.filterMap Value.temp?).Perm
      (r.1.values.filterMap Value.temp? ++ written.filterMap fun w => w.2.bind Value.temp?) := by
  induction written generalizing r with
  | nil => simp
  | cons w written ih =>
    obtain ⟨hw, hnodup⟩ := List.nodup_cons.1 hnodup
    obtain ⟨hfirst, hfresh⟩ := List.forall_mem_cons.1 hfresh
    have hother : ∀ w' ∈ written, w'.1.name ≠ w.1.name :=
      fun w' hw' heq => hw (List.mem_map.2 ⟨w', hw', heq⟩)
    obtain ⟨⟨values, names⟩, hr'⟩ : ∃ r', k.fill r w = r' := ⟨_, rfl⟩
    have hstep : (values.values.filterMap Value.temp?).Perm
        (r.1.values.filterMap Value.temp? ++ (w.2.bind Value.temp?).toList) ∧
        ∀ w' ∈ written, values.get? w'.1.name = none := by
      unfold fill at hr'
      split at hr'
      · next v hv =>
        obtain ⟨rfl, -⟩ := Prod.mk.inj hr'
        rw [hv]
        exact ⟨(Value.results_insert v hfirst).symm, fun w' hw' =>
          by simp [hother w' hw', hfresh w' hw']⟩
      · next hv =>
        rw [hv]
        split at hr'
        · next v hdefault =>
          obtain ⟨rfl, -⟩ := Prod.mk.inj hr'
          have hresults := Value.results_insert v hfirst
          rw [temp?_defaultValue hdefault] at hresults
          exact ⟨hresults.symm, fun w' hw' => by simp [hother w' hw', hfresh w' hw']⟩
        · subst hr'
          exact ⟨by simp, hfresh⟩
    have hrest := ih hnodup (values, names) hstep.2
    rw [List.foldl_cons, hr']
    refine hrest.trans ?_
    have hcons : (w :: written).filterMap (fun w => w.2.bind Value.temp?) =
        (w.2.bind Value.temp?).toList ++ written.filterMap fun w => w.2.bind Value.temp? := by
      rw [List.filterMap_cons]
      cases w.2.bind Value.temp? <;> rfl
    rw [hcons, ← List.append_assoc]
    exact hstep.1.append_right _

/-- The roots of a part of a chain statement: the last step of a chain, or those of the chains among
arguments. -/
def Shoot.Roots (steps roots : List Step) : Shoot → Prop
  | .args written => roots.map Step.temp = written.filterMap fun w => w.2.bind Value.temp?
  | .calls _ out => ∃ init st, steps = init ++ [st] ∧ roots = [st] ∧ st.out = out

namespace Grown

variable {part : Shoot}

theorem context (h : Grown k gs r part base steps) :
    ∀ st ∈ steps, st.guards = gs ∧ st.repetition = r := by
  induction h with
  | nil => simp
  | omitted _ ih | plain _ _ ih => exact ih
  | chain _ _ _ _ ihown ih => exact List.forall_mem_append.2 ⟨ihown, ih⟩
  | first _ step _ _ ih =>
      exact List.forall_mem_append.2 ⟨ih, by simpa using ⟨step.guards, step.repetition⟩⟩
  | next _ _ _ step _ _ ihbefore ih =>
    exact List.forall_mem_append.2
      ⟨ihbefore, List.forall_mem_append.2 ⟨ih, by simpa using ⟨step.guards, step.repetition⟩⟩⟩

/-- The steps of a chain statement are one tree, and its root is the last one. -/
theorem forest (hops : k.registry.ops.Built) (h : Grown k gs r part base steps) :
    ∃ roots, Forest base steps roots ∧ part.Roots steps roots := by
  have huses : ∀ {spec : OpSpec} {written : List (ArgSpec × Option Value)} {temp : Nat} {source :
      Option Nat}
      {out : Option Surface} {st : Step}, st.Calls k gs r spec written temp source out →
      st.uses.Perm (source.toList ++ written.filterMap fun w => w.2.bind Value.temp?) := by
    intro spec written temp source out st hst
    have hresults := Checker.fill_results (k := k) (hst.names hops).2 ({}, []) fun _ _ => rfl
    rw [hst.values] at hresults
    unfold Step.uses
    rw [hst.source]
    exact hresults.append_left _
  induction h with
  | nil => exact ⟨[], .nil, rfl⟩
  | omitted _ ih => exact ih
  | plain came _ ih =>
    obtain ⟨roots, hforest, hroots⟩ := ih
    exact ⟨roots, hforest,
      hroots.trans (by rw [List.filterMap_cons_none (by simpa using came.temp?_eq)])⟩
  | @chain a written base last op out own steps surface before hlast rest ihown ih =>
    obtain ⟨_, hown, init, st, rfl, rfl, -⟩ := ihown
    obtain ⟨roots, hforest, hroots⟩ := ih
    refine ⟨[st] ++ roots, hown.append hforest, ?_⟩
    have htemp : st.temp = last := by
      rw [List.length_append, List.length_singleton] at hlast
      have := before.temp_of_get? (List.getElem?_concat_length (a := st) (l := init))
      omega
    subst htemp
    exact congrArg (st.temp :: ·) hroots
  | @first spec written base out own st args step starts named ih =>
    obtain ⟨roots, hforest, hroots⟩ := ih
    have hforest' : Forest base own ([] ++ roots) := hforest
    refine ⟨[st], hforest'.snoc step.temp ?_ (fun t ht => ?_) (fun t _ hsource => ?_), own, st, rfl,
      rfl, step.out⟩
    · rw [show roots.map Step.temp = _ from hroots]
      exact huses step
    · rw [step.guards, step.repetition]
      exact args.context t (hforest.mem_of_root ht)
    · rw [step.source] at hsource
      cases hsource
  | @next op spec written base last out steps own st before hlast args step goesOn named
      ihbefore ih =>
    obtain ⟨_, hbefore, init, st₀, rfl, rfl, hout⟩ := ihbefore
    obtain ⟨roots, hforest, hroots⟩ := ih
    have htemp : st₀.temp = last := by
      rw [List.length_append, List.length_singleton] at hlast
      have := before.temp_of_get? (List.getElem?_concat_length (a := st₀) (l := init))
      omega
    have hboth : Forest base (init ++ [st₀] ++ own) ([] ++ ([st₀] ++ roots)) :=
      hbefore.append hforest
    refine ⟨[st], ?_, init ++ [st₀] ++ own, st, by simp, rfl, step.out⟩
    rw [← List.append_assoc]
    refine hboth.snoc ?_ ?_ (fun t ht => ?_) (fun t ht hsource => ?_)
    · rw [step.temp, Nat.add_assoc, ← List.length_append]
    · rw [List.map_append, show roots.map Step.temp = _ from hroots, List.map_singleton, htemp]
      exact huses step
    · rw [step.guards, step.repetition]
      rcases List.mem_append.1 ht with ht | ht
      · exact before.context t (hbefore.mem_of_root ht)
      · exact args.context t (hforest.mem_of_root ht)
    · rw [step.source] at hsource
      obtain rfl := Option.some.inj hsource
      rcases List.mem_append.1 ht with ht | ht
      · rw [List.mem_singleton.1 ht, hout]
      · have hold := (hbefore.temp_bounds (hbefore.mem_of_root (List.mem_singleton_self st₀))).2
        have hnew := (hforest.temp_bounds (hforest.mem_of_root ht)).1
        omega

end Grown

/-- The steps of chain statements are a forest, and its roots are the last steps of the statements.
-/
theorem Sliced.forest (hops : k.registry.ops.Built) {slices : List (List Step)}
    (h : Sliced k base slices) :
    Forest base slices.flatten (slices.filterMap List.getLast?) := by
  induction h with
  | nil => exact .nil
  | cons first _ _ ih =>
    obtain ⟨_, hforest, init, st, rfl, rfl, -⟩ := first.forest hops
    rw [List.flatten_cons, List.filterMap_cons_some List.getLast?_concat]
    exact hforest.append ih

section

variable {p : Plan} {more : List Step} {sts sts' : List Stmt}

/-! ## the lines of a plan -/

/-- The step, but for where it was written and for guards that are read again. -/
def Step.Remade (st st' : Step) : Prop :=
  ∃ ns pos, st' = { st with guards := st.guards.map Dynamic.reread, ns, pos }

/-- The statements are lowered to the steps once more where they stand under nothing else. -/
def Stmt.Remakes (k : Checker) (base : Nat) (steps : List Step) (sts : List Stmt) : Prop :=
  ∀ s : Surroundings, s.checker = k → s.vars = {} → s.guards = [] → ∃ steps',
    List.Forall₂ Step.Remade steps steps' ∧
    s.block base sts = { out := { steps := steps' } }

namespace Stmt.Remakes

theorem append (h : Remakes k base steps sts) (h' : Remakes k (base + steps.length) more sts') :
    Remakes k base (steps ++ more) (sts ++ sts') := by
  intro s hs hvars hguards
  obtain ⟨steps', hagain, hfirst⟩ := h s hs hvars hguards
  obtain ⟨more', hmore, hsecond⟩ := h' s hs hvars hguards
  refine ⟨steps' ++ more', List.rel_append hagain hmore, ?_⟩
  rw [block_append_of_onward sts' s base sts (by rw [hfirst]), hfirst]
  dsimp only
  have hsame : ({ s with vars := {} } : Surroundings) = s := by rw [← hvars]
  rw [← hagain.length_eq, hsame, hsecond]
  rfl

end Stmt.Remakes

/-- Steps that stand under the same conditions and loops as a step. -/
def Step.Joins (st₀ : Step) (steps : List Step) : Prop :=
  ∀ st ∈ steps, st.guards.map Dynamic.reread = st₀.guards.map Dynamic.reread ∧
    st.repetition = st₀.repetition

theorem Stmt.Relays.remakes {st₀ : Step}
    (h : Relays k base (st₀.guards.map Dynamic.reread) st₀.repetition steps sts)
    (hjoins : st₀.Joins steps) : Remakes k base steps sts := by
  intro s hs hvars hguards
  obtain ⟨steps', hagain, hblock⟩ := h s hs hvars
  refine ⟨steps', ?_, hblock⟩
  rw [hguards, List.nil_append] at hagain
  clear hblock h
  induction hagain with
  | nil => exact .nil
  | @cons st _ _ _ hst _ ih =>
    obtain ⟨⟨hsame, hloops⟩, hjoins⟩ := List.forall_mem_cons.1 hjoins
    obtain ⟨ns, pos, rfl⟩ := hst
    exact .cons ⟨ns, pos, by rw [hsame, ← hloops]⟩ (ih hjoins)

/-- The line of a chain statement, whose steps stand under what its last step stands under. -/
structure Line (k : Checker) (p : Plan) (base : Nat) (steps : List Step) (st : Step) : Prop where
  last : steps.getLast? = some st
  context : ∀ st' ∈ steps, st'.guards = st.guards ∧ st'.repetition = st.repetition
  phrase : ∀ n, Phrase (fun _ => True)
    (Printer.indent n ++ (k.printer p).chainText (p.steps.length + 1) st.temp ++ "\n")
    (IsBlock p.search (Stmt.Relays k base [] {} steps))

theorem Line.joins {st st₀ : Step} (h : Line k p base steps st)
    (hsame : st.guards.map Dynamic.reread = st₀.guards.map Dynamic.reread ∧
      st.repetition = st₀.repetition) :
    st₀.Joins steps := by
  intro st' hst'
  obtain ⟨hguards, hloops⟩ := h.context st' hst'
  rw [hguards, hloops]
  exact hsame

/-- A chain statement is written on a line of its own. -/
theorem Grown.line {op : String} {out : Option Surface} (hops : k.registry.ops.Built)
    (hn : Namespaces.Sound k.registry.namespaces.records)
    (h : Grown k gs r (.calls op out) base steps)
    (hwritten : out = none → k.registry.ops.isStarter op = false)
    (hsteps : ∀ st ∈ steps, p.steps[st.temp]? = some st ∧ (k.printer p).SpellsStep st) :
    ∃ st, Line k p base steps st := by
  obtain ⟨init, st, calls, text, rfl, rfl, hchain⟩ := h.again hops hn hsteps
  have hcontext := h.context
  have hst := (hsteps st (by simp)).1
  refine ⟨st, List.getLast?_concat, fun st' hst' => ?_, fun n => ?_⟩
  · rw [(hcontext st (by simp)).1, (hcontext st (by simp)).2]
    exact hcontext st' hst'
  · obtain ⟨hlt, -⟩ := List.getElem?_eq_some_iff.1 hst
    rw [hchain.chainText_eq hst (by omega), String.append_assoc]
    refine (Phrase.indent n).gap_append
      (((hchain.phrase_chain fun o ho => (h.named o ho).1).append_gap Phrase.newline
      fun after _ => ?_).mono (fun _ => id) fun ts ⟨hstart, hts⟩ => ?_)
    · exact .cons (by decide) _
    · have hrun :=
        IsStmt.run (C := fun cs out => ∃ pos, Regrows k op base init st cs ∧
          out = st.out.map (.surface · pos))
        hstart (hts.mono fun e ⟨cs, pos, hcs, he⟩ => ⟨cs, _, ⟨pos, hcs, rfl⟩, he⟩)
      refine hrun.isBlock.mono ?_
      rintro _ ⟨_, rfl, cs, _, pos', pos'', ⟨pos, hcs, rfl⟩, rfl⟩
      exact Stmt.Relays.run hcs h.temp_ne (fun o ho => (h.named o ho).2) hwritten pos pos' pos''

/-- The lines of statements that follow each other, behind those of the block that is open, are the
steps. -/
theorem Sliced.phrase_body (hops : k.registry.ops.Built)
    (hn : Namespaces.Sound k.registry.namespaces.records) {slices : List (List Step)}
    (h : Sliced k base slices)
    (hsteps : ∀ st ∈ slices.flatten, p.steps[st.temp]? = some st ∧ (k.printer p).SpellsStep st ∧
      st.Retold)
    {st₀ : Step} (hst₀ : st₀.Retold) {base₀ : Nat} {done : List Step} {lines : List String}
    (hbase : base = base₀ + done.length) (hjoins : st₀.Joins done)
    (hlines : Phrase (fun _ => True) (String.join lines)
      (IsBlock p.search (Stmt.Relays k base₀ [] {} done))) :
    Phrase (fun _ => True) (String.join (Printer.openers (Printer.headers st₀) ++ lines ++
        (k.printer p).body (Printer.headers st₀) (slices.filterMap List.getLast?)))
      (IsBlock p.search (Stmt.Remakes k base₀ (done ++ slices.flatten))) := by
  have hgroup : ∀ {st₀ : Step} {base₀ : Nat} {done : List Step} {lines : List String}, st₀.Retold →
      st₀.Joins done →
      Phrase (fun _ => True) (String.join lines)
        (IsBlock p.search (Stmt.Relays k base₀ [] {} done)) →
      Phrase (fun _ => True) (String.join (Printer.openers (Printer.headers st₀) ++ lines ++
        Printer.closers (Printer.headers st₀).length))
            (IsBlock p.search (Stmt.Remakes k base₀ done)) := by
    intro st₀ base₀ done lines hst₀ hjoins hlines
    exact (hst₀.encloses lines hlines).mono (fun _ => id) fun ts hts => hts.mono fun sts hsts =>
      hsts.remakes hjoins
  induction h generalizing st₀ base₀ done lines with
  | nil =>
    rw [List.flatten_nil, List.append_nil]
    exact hgroup hst₀ hjoins hlines
  | @cons base gs r op out steps slices first written rest ih =>
    rw [List.flatten_cons] at hsteps ⊢
    obtain ⟨hfirst, hsteps⟩ := List.forall_mem_append.1 hsteps
    obtain ⟨st, hline⟩ := first.line (p := p) hops hn written fun st hst =>
      ⟨(hfirst st hst).1, (hfirst st hst).2.1⟩
    have hst : st.Retold := (hfirst st (List.mem_of_getLast? hline.last)).2.2
    rw [List.filterMap_cons_some hline.last, Printer.body]
    dsimp only
    have htext : ∀ n,
        String.join [Printer.indent n ++ (k.printer p).chainText (p.steps.length + 1)
          st.temp ++ "\n"] =
        Printer.indent n ++ (k.printer p).chainText (p.steps.length + 1) st.temp ++ "\n" := by simp
    split
    · next heq =>
      have hsame := hst.of_headers hst₀ heq
      have hmore : Phrase _ _ (IsBlock p.search (Stmt.Relays k base₀ [] {} (done ++ steps))) :=
        IsBlock.phrase_append hlines (hline.phrase (Printer.headers st).length)
          fun sts sts' hsts hsts' => hsts.append (hbase ▸ hsts')
      rw [← htext, ← String.join_append] at hmore
      have hall := ih hsteps hst₀ (by rw [hbase, List.length_append, Nat.add_assoc])
        (List.forall_mem_append.2 ⟨hjoins, hline.joins hsame⟩) hmore
      simpa only [List.append_assoc, List.singleton_append] using hall
    · have hbefore := hgroup hst₀ hjoins hlines
      have hnext : Phrase (fun _ => True)
          (String.join [Printer.indent (Printer.headers st).length ++
          (k.printer p).chainText (p.steps.length + 1) st.temp ++ "\n"])
              (IsBlock p.search (Stmt.Relays k base [] {} steps)) := by
        rw [htext]
        exact hline.phrase _
      have hlater : Phrase (fun _ => True) (String.join (Printer.openers (Printer.headers st) ++
          [Printer.indent (Printer.headers st).length ++
            (k.printer p).chainText (p.steps.length + 1) st.temp ++ "\n"] ++
          (k.printer p).body (Printer.headers st) (slices.filterMap List.getLast?)))
          (IsBlock p.search (Stmt.Remakes k base (steps ++ slices.flatten))) :=
        ih hsteps hst rfl (hline.joins ⟨rfl, rfl⟩) hnext
      have hall : Phrase _ _
          (IsBlock p.search (Stmt.Remakes k base₀ (done ++ (steps ++ slices.flatten)))) :=
        IsBlock.phrase_append hbefore hlater
          fun sts sts' hsts hsts' => hsts.append (hbase ▸ hsts')
      rw [← String.join_append] at hall
      simpa only [List.append_assoc, List.singleton_append] using hall

end

section

variable {p q : Plan}

/-! ## the text of the steps once more -/

namespace Printer

theorem headers_of_remade {st st' : Step} (h : st.Remade st') (hst : st.Retold) :
    headers st' = headers st := by
  obtain ⟨ns, pos, rfl⟩ := h
  unfold headers
  rw [List.map_map]
  refine congrArg (· ++ _) (List.map_congr_left fun g hg => ?_)
  obtain ⟨-, -, -, -, htext, -⟩ := (hst.guards g hg).reread_eq
  exact congrArg ("if " ++ ·) htext

theorem callText_of_remade (hsearch : q.search = p.search) {chain : Nat → String} {st st' : Step}
    (h : st.Remade st') :
    (k.printer q).callText chain st' = (k.printer p).callText chain st := by
  obtain ⟨ns, pos, rfl⟩ := h
  have hname : (k.printer q).opName st.op = (k.printer p).opName st.op := by
    unfold opName
    rw [show (k.printer q).plan.search = (k.printer p).plan.search from hsearch]
  exact congrArg (· ++ _ ++ _ ++ _) hname

section

variable (h : List.Forall₂ Step.Remade p.steps q.steps)

include h

theorem backwards_of_remade (limit temp : Nat) :
    List.Forall₂ Step.Remade (backwards p limit temp) (backwards q limit temp) := by
  induction limit generalizing temp with
  | zero => exact .nil
  | succ limit ih =>
    have hget : ∀ {xs ys : List Step}, List.Forall₂ Step.Remade xs ys → ∀ i : Nat,
        (xs[i]? = none ∧ ys[i]? = none) ∨
        ∃ st st', xs[i]? = some st ∧ ys[i]? = some st' ∧ st.Remade st' := by
      intro xs ys hall
      induction hall with
      | nil => exact fun i => .inl ⟨rfl, rfl⟩
      | cons hst _ ihall =>
        intro i
        cases i with
        | zero => exact .inr ⟨_, _, rfl, rfl, hst⟩
        | succ i => exact ihall i
    rw [backwards, backwards]
    rcases hget h temp with ⟨hp, hq⟩ | ⟨st, st', hp, hq, hst⟩
    · rw [hp, hq]
      exact .nil
    · rw [hp, hq]
      refine .cons hst ?_
      obtain ⟨ns, pos, rfl⟩ := hst
      dsimp only
      cases st.source with
      | none => exact .nil
      | some temp' => exact ih temp'

theorem chainText_of_remade (hsearch : q.search = p.search) (depth temp : Nat) :
    (k.printer q).chainText depth temp = (k.printer p).chainText depth temp := by
  induction depth generalizing temp with
  | zero => rfl
  | succ depth ih =>
    have hback := backwards_of_remade h (p.steps.length + 1) temp
    have hmap : ∀ {xs ys : List Step}, List.Forall₂ Step.Remade xs ys →
        ys.reverse.map ((k.printer q).callText ((k.printer q).chainText depth)) =
          xs.reverse.map ((k.printer p).callText ((k.printer p).chainText depth)) ∧
        ys.head?.bind (·.out) = xs.head?.bind (·.out) := by
      intro xs ys hall
      refine ⟨?_, ?_⟩
      · rw [funext ih, List.map_reverse, List.map_reverse]
        refine congrArg List.reverse ?_
        induction hall with
        | nil => rfl
        | cons hst _ ihall =>
            rw [List.map_cons, List.map_cons, callText_of_remade hsearch hst, ihall]
      · cases hall with
        | nil => rfl
        | cons hst _ =>
          obtain ⟨ns, pos, rfl⟩ := hst
          rfl
    obtain ⟨hcalls, hout⟩ := hmap hback
    rw [chainText, chainText]
    change ".".intercalate ((backwards q (q.steps.length + 1) temp).reverse.map _) ++ _ =
      ".".intercalate ((backwards p (p.steps.length + 1) temp).reverse.map _) ++ _
    rw [← h.length_eq, hcalls]
    have hout' : (backwards (k.printer q).plan (p.steps.length + 1) temp).head?.bind (·.out) =
        (backwards (k.printer p).plan ((k.printer p).plan.steps.length + 1) temp).head?.bind
          (·.out) := hout
    rw [hout']

/-- The same text is written for the steps once more. -/
theorem text_of_remade (hretold : ∀ st ∈ p.steps, st.Retold) (hsearch : q.search = p.search)
    (hrender : q.render = p.render) :
    (k.printer q).text = (k.printer p).text := by
  have huses : q.steps.flatMap Step.uses = p.steps.flatMap Step.uses := by
    generalize p.steps = xs at h
    generalize q.steps = ys at h
    induction h with
    | nil => rfl
    | cons hst _ ih =>
      obtain ⟨ns, pos, rfl⟩ := hst
      rw [List.flatMap_cons, List.flatMap_cons, ih]
      rfl
  have hfilter : ∀ {xs ys : List Step} (f : Nat → Bool), List.Forall₂ Step.Remade xs ys →
      List.Forall₂ Step.Remade (xs.filter fun st => f st.temp) (ys.filter fun st => f st.temp) := by
    intro xs ys f hall
    induction hall with
    | nil => exact .nil
    | @cons st _ _ _ hst _ ih =>
      obtain ⟨ns, pos, rfl⟩ := hst
      by_cases hf : f st.temp = true
      · simp only [List.filter_cons, hf, if_true]
        exact .cons ⟨ns, pos, rfl⟩ ih
      · simp only [List.filter_cons, hf]
        exact ih
  have hbody : ∀ {xs ys : List Step} (open_ : List String), List.Forall₂ Step.Remade xs ys →
      (∀ st ∈ xs, st.Retold) →
      (k.printer q).body open_ ys = (k.printer p).body open_ xs := by
    intro xs ys open_ hall hxs
    induction hall generalizing open_ with
    | nil => rfl
    | @cons st _ _ _ hst _ ih =>
      obtain ⟨hfirst, hxs⟩ := List.forall_mem_cons.1 hxs
      have hheaders := headers_of_remade hst hfirst
      obtain ⟨ns, pos, rfl⟩ := hst
      rw [body, body, hheaders]
      dsimp only
      rw [ih _ hxs, ih _ hxs, chainText_of_remade h hsearch, h.length_eq]
  unfold text
  dsimp only
  rw [consumed_eq, consumed_eq, huses, hsearch, hrender]
  rw [hbody [] (hfilter (fun n => !(p.steps.flatMap Step.uses).contains n) h) fun st hst =>
    hretold st (List.mem_filter.1 hst).1]

end

end Printer

theorem Plan.source_empty (p : Plan) : p.source k.registry {} = .ok (k.printer p).text := by
  have hnone : Printer.refusal? (k.printer p) = none := by
    unfold Printer.refusal?
    change (List.mergeSort [] _).findSome? _ = none
    rw [List.mergeSort_nil]
    rfl
  unfold source
  dsimp only
  rw [hnone]

end

section

variable {p : Plan}

/-! ## plans that are written and read again -/

/-- The condition has the same truth in every frame. -/
def Dynamic.Agrees (d d' : Dynamic) : Prop :=
  ∀ s : FrameState, (d'.eval s.env).truthy = (d.eval s.env).truthy

/-- What the plan is written with can be read again: its names are plain, its numbers have six
places at most, what is written for its values is the values, and the closure of a negated condition
has the truth of the condition. -/
structure Plan.Legible (k : Checker) (p : Plan) : Prop where
  search : ∀ n ∈ p.search, IsName n
  steps : ∀ st ∈ p.steps, (k.printer p).SpellsStep st
  guards : ∀ st ∈ p.steps, ∀ g ∈ st.guards, (g.negated = false → g.signal.Short) ∧
    (g.negated = true → ∃ d, Dynamic.closure? g.formula = some d ∧ g.Agrees d)
  factors : ∀ st ∈ p.steps, ∀ d, st.repetition.factor = some d → d.signal.Short

/-- The step of a plan that was written and read again: only where it was written, and the text of
its negated conditions, can be others. -/
structure Step.Restored (st st' : Step) : Prop where
  op : st'.op = st.op
  source : st'.source = st.source
  args : st'.args = st.args
  explicit : st'.explicit = st.explicit
  temp : st'.temp = st.temp
  out : st'.out = st.out
  repetition : st'.repetition = st.repetition
  guards : List.Forall₂ Dynamic.Agrees st.guards st'.guards

namespace Plan.Legible

theorem retold (h : p.Legible k) {st : Step} (hst : st ∈ p.steps) (hframed : st.Framed) :
    st.Retold where
  framed := hframed
  guards g hg := ⟨hframed.guards g hg, (h.guards st hst g hg).1, fun hn => by
    obtain ⟨d, hd, -⟩ := (h.guards st hst g hg).2 hn
    rw [hd]
    rfl⟩
  factor d hd := ⟨(hframed.factor d hd).1, fun _ => h.factors st hst d hd, fun hn => by
    rw [(hframed.factor d hd).2] at hn
    cases hn⟩

/-- Conditions that are read again have the same truth. -/
theorem agrees_reread (h : p.Legible k) {st : Step} (hst : st ∈ p.steps) {g : Dynamic}
    (hg : g ∈ st.guards) (hretold : g.Retold) : g.Agrees g.reread := by
  cases hn : g.negated with
  | false =>
    rw [hretold.reread_eq.2.2.2.2.2.2 hn]
    exact fun _ => rfl
  | true =>
    obtain ⟨d, hd, hagrees⟩ := (h.guards st hst g hg).2 hn
    have hread := hretold.reread?_eq
    rw [Dynamic.reread?, if_pos hn, hd] at hread
    rwa [← Option.some.inj hread]

theorem restored (h : p.Legible k) {st st' : Step} (hst : st ∈ p.steps) (hretold : st.Retold)
    (hremade : st.Remade st') :
    st.Restored st' := by
  obtain ⟨ns, pos, rfl⟩ := hremade
  refine ⟨rfl, rfl, rfl, rfl, rfl, rfl, rfl, ?_⟩
  dsimp only
  rw [List.forall₂_map_right_iff, List.forall₂_same]
  exact fun g hg => h.agrees_reread hst hg (hretold.guards g hg)

end Plan.Legible

/-- The surface that a program names is one of the language. -/
theorem Program.WellFormed.named_render {ts : List Token} {program : Program}
    (h : program.WellFormed ts) {x : Surface × Pos} (hx : program.render = some x) : x.1.Named := by
  have hrender := h.render
  rw [hx] at hrender
  cases hrender with
  | @one _ _ _ _ target _ _ _ _ htarget _ _ =>
    unfold Parser.surfaceOf
    cases hname : Surface.ofName? target.word with
    | none => exact Surface.named_default
    | some o => exact ⟨_, hname⟩

/-- What names the surface to show. -/
def Printer.finalText (render : Option Surface) : String :=
  match render with
  | some s => "render(" ++ s.name ++ ")\n"
  | none => ""

/-- What names the surface to show ends the text of a plan. -/
theorem Lexer.phrase_final {render : Option Surface} (h : ∀ o ∈ render, o.Named) :
    Phrase (fun _ => True) (Printer.finalText render) (IsEnd render) := by
  cases render with
  | none =>
    refine Phrase.nil.mono (fun _ => id) fun ts hts => ?_
    subst hts
    exact Parser.isEnd_nil
  | some o =>
    obtain ⟨hname, hsurface⟩ := phrase_surface (h o rfl)
    exact Parser.phrase_render hname (word_of_surface (h o rfl)).2 hsurface

/-- The lines of the statements of a plan are the steps. -/
theorem Sliced.phrase_lines (hops : k.registry.ops.Built)
    (hn : Namespaces.Sound k.registry.namespaces.records) {slices : List (List Step)}
    (h : Sliced k 0 slices)
    (hsteps : ∀ st ∈ slices.flatten, p.steps[st.temp]? = some st ∧ (k.printer p).SpellsStep st ∧
      st.Retold) :
    Phrase (fun _ => True) (String.join ((k.printer p).body [] (slices.filterMap List.getLast?)))
      (IsBlock p.search (Stmt.Remakes k 0 slices.flatten)) := by
  -- nothing is open before the first line
  have hstart : Step.Retold { op := "" } :=
    ⟨⟨by simp, by simp, by simp [maxRepeat], by simp⟩, by simp, by simp⟩
  have hnone : Printer.headers { op := "" } = [] := rfl
  have hlines : Phrase (fun _ => True) (String.join [])
      (IsBlock p.search (Stmt.Relays k 0 [] {} [])) := by
    rw [String.join_nil]
    refine Phrase.nil.mono (fun _ => id) fun ts hts => ?_
    subst hts
    exact IsBlock.nil Stmt.Relays.nil
  have hbody : Phrase (fun _ => True)
      (String.join (Printer.openers (Printer.headers { op := "" }) ++ [] ++
      (k.printer p).body (Printer.headers { op := "" }) (slices.filterMap List.getLast?)))
      (IsBlock p.search (Stmt.Remakes k 0 ([] ++ slices.flatten))) :=
    h.phrase_body hops hn hsteps hstart rfl (fun st hst => absurd hst List.not_mem_nil) hlines
  rw [hnone, List.nil_append] at hbody
  exact hbody

/-- The text of a plan is read as a program that comes to its steps once more; only the nesting can
keep it from being read. -/
theorem Plan.exists_program (hops : k.registry.ops.Built) (hspaces : k.registry.namespaces.Built)
    {slices : List (List Step)} (hslices : p.steps = slices.flatten) (hsliced : Sliced k 0 slices)
    (hretold : ∀ st ∈ p.steps, st.Retold) (hsearch : p.search ≠ [] ∧ p.search.Nodup)
    (hnamed : ∀ o ∈ p.render, o.Named) (hlegible : p.Legible k) {options : Options}
    (hdeep : ∀ e, Program.parse options (Bytes.ofString (k.printer p).text) = .error e →
      e.cause ≠ .nestingTooDeep) :
    ∃ program, Program.parse options (Bytes.ofString (k.printer p).text) = .ok program ∧
    program.search = p.search ∧
      program.render.map (·.1) = p.render ∧ Stmt.Remakes k 0 p.steps program.statements := by
  have hforest := hsliced.forest hops
  rw [← hslices] at hforest
  have hget : ∀ st ∈ p.steps, p.steps[st.temp]? = some st := by
    intro st hst
    obtain ⟨i, hi, rfl⟩ := List.getElem_of_mem hst
    have htemp := hforest.temp_of_get? (List.getElem?_eq_getElem hi)
    rw [htemp, Nat.zero_add, List.getElem?_eq_getElem hi]
  have hunused : (p.steps.filter fun st => !(Printer.consumed p).contains st.temp) =
      slices.filterMap List.getLast? := by
    rw [Printer.consumed_eq]
    exact hforest.filter_unused
  have hbody := hsliced.phrase_lines hops hspaces.sound (p := p)
    fun st hst =>
      ⟨hget st (hslices ▸ hst), hlegible.steps st (hslices ▸ hst), hretold st (hslices ▸ hst)⟩
  have htext : (k.printer p).text = "search " ++ ", ".intercalate p.search ++ "\n" ++
      String.join ((k.printer p).body [] (slices.filterMap List.getLast?)) ++
          Printer.finalText p.render := by
    rw [← hunused]
    rfl
  rw [← hslices] at hbody
  exact Program.exists_of_block hsearch.1 hsearch.2 hlegible.search hbody (phrase_final hnamed)
    htext hdeep

end

/-! ## a chain in an argument, under a condition and in a loop -/

theorem loft_built : loft.ops.Built := by
  have hink : ({} : Operations).register "ink" [{ name := "wet", type := .boolean }] = .ok _ := rfl
  have hmix : Operations.register
      { specs := .ofList
          [("ink", { name := "ink", args := [{ name := "wet", type := .boolean }] })] }
      "mix" [{ name := "tex", type := .surface }, { name := "fast", type := .boolean }] =
        .ok _ := rfl
  exact .markStarters (.register (.register .empty hink) hmix) ["ink"]

/-- A word of a source at a place. -/
def placed (line col : Nat) (kind : TokenKind) (word : String) : Token :=
  ⟨kind, Bytes.ofString word, ⟨line, col⟩⟩

def atticSource : Bytes := .ofString
  "search s\nloop time \x7b\nif seed \x7b\nink().mix(tex: ink(), fast: true).out(o0)\n\x7d\n\x7d\n"

/-- The text of the plan, where the condition stands before the loop. -/
def atticText : String :=
  "search s\nif seed \x7b\n  loop time \x7b\n    ink().mix(tex: ink(), fast: true).out(o0)\n  \x7d\n\x7d\n"

/-- The words of the chain from a column of the fourth line on. -/
def atticChain (col : Nat) : List Token :=
  [placed 4 col .identifier "ink", placed 4 (col + 3) .lparen "(",
    placed 4 (col + 4) .rparen ")", placed 4 (col + 5) .dot ".",
    placed 4 (col + 6) .identifier "mix", placed 4 (col + 9) .lparen "(",
    placed 4 (col + 10) .identifier "tex", placed 4 (col + 13) .colon ":",
    placed 4 (col + 15) .identifier "ink", placed 4 (col + 18) .lparen "(",
    placed 4 (col + 19) .rparen ")", placed 4 (col + 20) .comma ",",
    placed 4 (col + 22) .identifier "fast", placed 4 (col + 26) .colon ":",
    placed 4 (col + 28) .keyword "true", placed 4 (col + 32) .rparen ")",
    placed 4 (col + 33) .dot ".", placed 4 (col + 34) .identifier "out",
    placed 4 (col + 37) .lparen "(", placed 4 (col + 38) .surface "o0",
    placed 4 (col + 40) .rparen ")"]

def atticTokens : List Token :=
  [placed 1 1 .keyword "search", placed 1 8 .identifier "s", placed 2 1 .keyword "loop",
    placed 2 6 .identifier "time", placed 2 11 .lbrace "\x7b", placed 3 1 .keyword "if",
    placed 3 4 .identifier "seed", placed 3 9 .lbrace "\x7b"] ++ atticChain 1 ++
    [placed 5 1 .rbrace "\x7d", placed 6 1 .rbrace "\x7d", placed 7 1 .endOfInput ""]

def atticTextTokens : List Token :=
  [placed 1 1 .keyword "search", placed 1 8 .identifier "s", placed 2 1 .keyword "if",
    placed 2 4 .identifier "seed", placed 2 9 .lbrace "\x7b", placed 3 3 .keyword "loop",
    placed 3 8 .identifier "time", placed 3 13 .lbrace "\x7b"] ++ atticChain 5 ++
    [placed 5 3 .rbrace "\x7d", placed 6 1 .rbrace "\x7d", placed 7 1 .endOfInput ""]

def atticProgram : Program where
  search := ["s"]
  statements :=
    let ns := { resolved := true, search := ["s"] }
    let ink (col : Nat) : Call := { name := "ink", ns, pos := ⟨4, col⟩ }
    let kwargs : List Keyword :=
      [⟨"tex", .call (ink 16), ⟨4, 11⟩⟩, ⟨"fast", .bool true ⟨4, 29⟩, ⟨4, 23⟩⟩]
    let mix : Call := { name := "mix", kwargs, ns, pos := ⟨4, 7⟩ }
    let run : Stmt := .run {
      calls := [ink 1, mix], out := some (.surface ⟨.output, 0⟩ ⟨4, 39⟩), pos := ⟨4, 1⟩ } ⟨4, 1⟩
    [.repeated (some (.ident "time" ⟨2, 6⟩))
      [.choose [⟨.ident "seed" ⟨3, 4⟩, [run], ⟨3, 1⟩⟩] none ⟨3, 1⟩] ⟨2, 1⟩]

def atticPlan : Plan where
  search := ["s"]
  steps :=
    let ns := { resolved := true, search := ["s"] }
    let guards := [.ofState "seed"]
    let repetition := { factor := some (.ofState "time") }
    let ink : Step :=
      { op := "ink", args := .ofList [("wet", .boolean false)], guards, repetition, ns }
    [{ ink with temp := 0, pos := ⟨4, 1⟩ }, { ink with temp := 1, pos := ⟨4, 16⟩ },
      { op := "mix", args := .ofList [("tex", .ref ⟨.temp, 1⟩), ("fast", .boolean true)],
        explicit := ["tex", "fast"], source := some 0, temp := 2, out := some ⟨.output, 0⟩,
        guards, repetition, ns, pos := ⟨4, 7⟩ }]

theorem attic_compile : Plan.compile atticSource loft {} = .ok atticPlan := by
  have hscan : Token.scan atticSource = .ok atticTokens := by
    rw [show atticSource = _ from Bytes.ofString_ofList _]
    decide +kernel
  have hparse : Program.ofTokens {} atticTokens = .ok atticProgram := by cbv
  exact Plan.compile_of_stages hscan hparse rfl

theorem attic_legible : atticPlan.Legible { registry := loft } where
  search := by decide +kernel
  steps := by
    have hpath : ∀ n ∈ ["ink", "mix"], IsPlainPath n := by
      intro n hn
      have hname : IsName n ∧ n ≠ "Math" ∧ n ≠ "out" := by
        revert n
        decide +kernel
      exact ⟨[n], by simp, by simp, by simpa using hname⟩
    have hink : ∀ st ∈ [atticPlan.steps[0], atticPlan.steps[1]],
        (Checker.printer { registry := loft } atticPlan).SpellsStep st := by
      intro st hst
      have hplain : st.op = "ink" ∧ st.explicit = [] ∧ st.ns.explicit = false := by
        rcases List.mem_pair.1 hst with rfl | rfl <;> exact ⟨rfl, rfl, rfl⟩
      exact ⟨hplain.1 ▸ hpath "ink" (by simp), by simp [hplain.2.2], by simp [hplain.2.1],
        by simp [hplain.2.1]⟩
    have hmix : (Checker.printer { registry := loft } atticPlan).SpellsStep atticPlan.steps[2] := by
      refine ⟨hpath "mix" (by simp), nofun, by decide, fun spec hspec a ha _ v hv => ?_⟩
      obtain rfl := Option.some.inj hspec
      rcases List.mem_pair.1 ha with rfl | rfl
      · obtain rfl := Option.some.inj hv
        trivial
      · obtain rfl := Option.some.inj hv
        rfl
    intro st hst
    rcases List.mem_cons.1 hst with rfl | hst
    · exact hink _ List.mem_cons_self
    · rcases List.mem_cons.1 hst with rfl | hst
      · exact hink _ (List.mem_cons_of_mem _ List.mem_cons_self)
      · rw [List.mem_singleton.1 hst]
        exact hmix
  guards st hst g hg := by
    have hseed : st.guards = [.ofState "seed"] := by
      have hall : ∀ st ∈ atticPlan.steps, st.guards = [.ofState "seed"] := by
        rintro st (_ | ⟨_, _ | ⟨_, _ | ⟨_, ⟨⟩⟩⟩⟩) <;> rfl
      exact hall st hst
    rw [hseed, List.mem_singleton] at hg
    subst hg
    exact ⟨fun _ => trivial, nofun⟩
  factors st hst d hd := by
    have htime : st.repetition.factor = some (.ofState "time") := by
      have hall : ∀ st ∈ atticPlan.steps, st.repetition.factor = some (.ofState "time") := by
        rintro st (_ | ⟨_, _ | ⟨_, _ | ⟨_, ⟨⟩⟩⟩⟩) <;> rfl
      exact hall st hst
    obtain rfl := Option.some.inj (htime.symm.trans hd)
    trivial

namespace Parser

open Scope

/-- An operand is read one level deeper, up to where no operator goes on. -/
theorem outcome_expr_of_primary {s : Scope} (hs : s.depth < s.maxDepth) {t : Token}
    {ts rest : List Token} {e : Expr} (ht : t.kind ≠ .minus ∧ t.kind ≠ .plus) (hrest : Halts rest)
    (h : outcome (primary { s with depth := s.depth + 1 } t ts) = .ok (e, rest)) :
    outcome (expr s (t :: ts)) = .ok (e, rest) := by
  have hunary : outcome (unary { s with depth := s.depth + 1 } (t :: ts)) = .ok (e, rest) :=
    (unary_primary ht).trans h
  have hproduct : outcome (multiplicative { s with depth := s.depth + 1 } (t :: ts)) =
      .ok (e, rest) := by
    rw [outcome_multiplicative, hunary]
    exact products_end (fun t ht => ⟨(hrest t ht).2.2.1, (hrest t ht).2.2.2.1⟩) _ e
  have hsum : outcome (additive { s with depth := s.depth + 1 } (t :: ts)) = .ok (e, rest) := by
    rw [outcome_additive, hproduct]
    exact sums_end (fun t ht => ⟨(hrest t ht).1, (hrest t ht).2.1⟩) _ e
  rw [outcome_expr, Scope.enter, if_neg (by omega)]
  exact hsum

/-- A number under a name, on the second line. -/
def numberWords (col : Nat) (n digits : String) : List Token :=
  [placed 2 col .identifier n, placed 2 (col + n.length) .colon ":",
    placed 2 (col + n.length + 2) .number digits]

/-- The number is read, and what is behind it decides on the next argument. -/
theorem outcome_numberWords {s : Scope} (hs : s.depth < s.maxDepth) {col : Nat} {n digits : String}
    {x : Float} (hx : Number.read? digits = some x) {acc : List Keyword}
    (hfresh : acc.any (·.name = n) = false) {t : Token} (ht : t.kind = .comma ∨ t.kind = .rparen)
    (more : List Token) :
    outcome (arguments s [] acc (numberWords col n digits ++ t :: more)) =
      furtherArguments s []
        (acc ++ [⟨n, .number x digits ⟨2, col + n.length + 2⟩, ⟨2, col⟩⟩]) (t :: more) := by
  have hnumber : outcome (expr s (placed 2 (col + n.length + 2) .number digits :: t :: more)) =
      .ok (.number x digits ⟨2, col + n.length + 2⟩, t :: more) := by
    refine outcome_expr_of_primary hs ⟨nofun, nofun⟩ (.cons (ht.imp_right .inl)) ?_
    rw [placed, outcome_primary_number]
    simp only [Bytes.toString, Bytes.ofString, Utf8.decode_encode, String.ofList_toList, hx]
  rw [outcome_arguments]
  simp only [numberWords, placed, Scope.peek, Scope.peekSecond, List.cons_append, List.nil_append,
    List.headD_cons, List.drop_succ_cons, List.drop_zero, Token.word_ofString, hfresh]
  change (outcome (expr s (placed 2 (col + n.length + 2) .number digits :: t :: more)) >>= _) = _
  rw [hnumber]
  rfl

/-- A loop that a saw repeats, up to the parenthesis of the saw. -/
def loopWords (args : List Token) : List Token :=
  placed 2 1 .keyword "loop" :: placed 2 6 .identifier "saw" :: placed 2 9 .lparen "(" :: args

/-- The body of the loop, from its brace on. -/
def inkWords (col : Nat) : List Token :=
  [placed 2 col .lbrace "\x7b", placed 3 3 .identifier "ink", placed 3 6 .lparen "(",
    placed 3 7 .rparen ")", placed 3 8 .dot ".", placed 3 9 .identifier "out",
    placed 3 12 .lparen "(", placed 3 13 .surface "o0", placed 3 15 .rparen ")",
    placed 4 1 .rbrace "\x7d"]

/-- What is known where the loop begins. -/
def loopScope : Scope where
  last := placed 5 1 .endOfInput ""
  maxDepth := ({} : Options).maxDepth
  search := ["s"]

/-- The saw with its arguments. -/
def sawCall (kwargs : List Keyword) : Call :=
  { name := "saw", kwargs, ns := { resolved := true, search := ["s"] }, pos := ⟨2, 6⟩ }

/-- The statement in the body. -/
def inkLine : Stmt :=
  let calls := [{ name := "ink", ns := { resolved := true, search := ["s"] }, pos := ⟨3, 3⟩ }]
  .run { calls, out := some (.surface ⟨.output, 0⟩ ⟨3, 13⟩), pos := ⟨3, 3⟩ } ⟨3, 3⟩

/-- The loop that the saw repeats. -/
def sawLoop (kwargs : List Keyword) : Stmt :=
  .repeated (some (.call (sawCall kwargs))) [inkLine] ⟨2, 1⟩

variable {args rest : List Token} {kwargs : List Keyword} {close : Token} {col : Nat}

/-- The saw is read with its arguments. -/
theorem outcome_saw (hclose : close.kind = .rparen) (hrest : Halts rest)
    (h : outcome (arguments { loopScope with depth := 2 } [] [] args) =
      .ok (([], kwargs), close :: rest)) :
    outcome (expr loopScope (placed 2 6 .identifier "saw" :: placed 2 9 .lparen "(" :: args)) =
      .ok (.call (sawCall kwargs), rest) := by
  refine outcome_expr_of_primary (by decide) ⟨nofun, nofun⟩ hrest ?_
  have hpath : dottedPath (placed 2 9 .lparen "(" :: args) =
      ([], placed 2 9 .lparen "(" :: args) := by
    cases args <;> rfl
  have hcall : outcome (call { loopScope with depth := 1 } "saw" [] ⟨2, 6⟩
      (placed 2 9 .lparen "(" :: args)) = .ok (sawCall kwargs, rest) := by
    rw [outcome_call]
    change (outcome (arguments { loopScope with depth := 2 } [] [] args) >>= _) = _
    rw [h]
    exact closed_eq _ _ close rest hclose
  have hdot : (Scope.peek { loopScope with depth := 1 } rest).kind ≠ .dot := by
    cases rest with
    | nil => decide
    | cons t rest => exact (hrest t rfl).2.2.2.2.1
  have hword : (placed 2 6 .identifier "saw").word = "saw" := Token.word_ofString ..
  rw [outcome_primary]
  change outcome (named _ (placed 2 6 .identifier "saw") _) = _
  rw [outcome_named, pathAt, hpath, hword, if_neg (by simp), if_neg (by simp [loopScope]),
    if_neg (by simp [loopScope]), if_pos (by rfl)]
  change (outcome (call { loopScope with depth := 1 } "saw" [] ⟨2, 6⟩
    (placed 2 9 .lparen "(" :: args)) >>= _) = _
  rw [hcall]
  change outcome (chainAfter _ _ _) = _
  rw [outcome_chainAfter]
  exact if_neg hdot

/-- The loop is the whole program behind the search order. -/
theorem ofTokens_loop (hclose : close.kind = .rparen)
    (h : outcome (arguments { loopScope with depth := 2 } [] [] args) =
      .ok (([], kwargs), close :: inkWords col)) :
    Program.ofTokens {} (placed 1 1 .keyword "search" :: placed 1 8 .identifier "s" ::
      loopWords args ++ [placed 5 1 .endOfInput ""]) =
      .ok { search := ["s"], statements := [sawLoop kwargs] } := by
  have hstatement : outcome (statement loopScope {} (loopWords args)) =
      .ok (([sawLoop kwargs], {}), []) := by
    have hloop : ∀ w, (placed 2 1 .keyword "loop").isWord w = decide ("loop" = w) := fun w => by
      simp [placed, Token.isWord, Token.word_ofString]
    have hbody : outcome (block { loopScope with inLoop := true } {} (inkWords col)) =
        .ok (([inkLine], {}), []) := by cbv
    rw [loopWords, outcome_statement]
    dsimp only
    rw [hloop, hloop, hloop, if_neg (by simp), if_neg (by simp), if_pos (by simp), loopAt,
      if_neg (by simp [Scope.peek, placed])]
    change (outcome (expr loopScope
      (placed 2 6 .identifier "saw" :: placed 2 9 .lparen "(" :: args)) >>= _) = _
    rw [outcome_saw hclose (.cons (.inr (.inr (.inl rfl)))) h]
    change (outcome (block { loopScope with inLoop := true } {} (inkWords col)) >>= _) = _
    rw [hbody]
    rfl
  have hstatements : statements loopScope {} (loopWords args) = .ok ([sawLoop kwargs], {}) := by
    rw [statements_eq]
    change statementsAt loopScope {} (placed 2 1 .keyword "loop" :: _) = _
    rw [statementsAt, if_neg (by decide)]
    change (outcome (statement loopScope {} (loopWords args)) >>= _) = _
    rw [hstatement]
    change (statements loopScope {} [] >>= _) = _
    rw [statements_nil]
    rfl
  have hnames : ∀ s : Scope, outcome (searchNames s []
      ([placed 1 8 .identifier "s"] ++ loopWords args)) = .ok (["s"], loopWords args) := by
    intro s
    have hname : (placed 1 8 .identifier "s").word = "s" := Token.word_ofString ..
    rw [List.singleton_append, outcome_searchNames]
    change furtherNames s (if ([] : List String).contains (placed 1 8 .identifier "s").word = true
      then [] else [] ++ [(placed 1 8 .identifier "s").word]) (loopWords args) = _
    rw [hname, loopWords, furtherNames, if_neg (by decide)]
    rfl
  refine (Program.ofTokens_search
    ⟨by simp [placed], by simp [placed, Token.isWord, Token.word_ofString]⟩ hnames rfl).trans ?_
  change (statements loopScope {} (loopWords args) >>= _) = _
  rw [hstatements]
  rfl

end Parser

open EffectChain.Parser

/-- Where the wave that repeats a step begins. -/
def Step.lowest? (st : Step) : Option Float :=
  match st.repetition.factor with
  | some ⟨.oscillator o, _, _, _⟩ => some o.min
  | _ => none

/-- A loop that a saw repeats; it begins at a number of seven places. -/
def driftSource : Bytes :=
  .ofString "search s\nloop saw(min: 0.0000001) \x7b\n  ink().out(o0)\n\x7d\n"

def driftArgs : List Keyword := [⟨"min", .number 0.0000001 "0.0000001" ⟨2, 15⟩, ⟨2, 10⟩⟩]

def driftWords : List Token :=
  numberWords 10 "min" "0.0000001" ++ placed 2 24 .rparen ")" :: inkWords 26

/-- The text of its plan, with six places at most. -/
def driftText : String :=
  "search s\nloop saw(min: 0, max: 1, speed: 1, offset: 0) \x7b\n  ink().out(o0)\n\x7d\n"

def driftTextArgs : List Keyword :=
  [⟨"min", .number 0 "0" ⟨2, 15⟩, ⟨2, 10⟩⟩, ⟨"max", .number 1 "1" ⟨2, 23⟩, ⟨2, 18⟩⟩,
    ⟨"speed", .number 1 "1" ⟨2, 33⟩, ⟨2, 26⟩⟩, ⟨"offset", .number 0 "0" ⟨2, 44⟩, ⟨2, 36⟩⟩]

def driftTextWords : List Token :=
  numberWords 10 "min" "0" ++ placed 2 16 .comma "," :: (numberWords 18 "max" "1" ++
    placed 2 24 .comma "," :: (numberWords 26 "speed" "1" ++ placed 2 34 .comma "," ::
      (numberWords 36 "offset" "0" ++ placed 2 45 .rparen ")" :: inkWords 47)))

theorem drift_arguments : outcome (arguments { loopScope with depth := 2 } [] [] driftWords) =
    .ok (([], driftArgs), placed 2 24 .rparen ")" :: inkWords 26) := by
  have hread : Number.read? "0.0000001" = some 0.0000001 := by decide +kernel
  rw [driftWords, outcome_numberWords (by decide) hread rfl (.inr rfl), furtherArguments,
    if_neg (by decide)]
  rfl

theorem driftText_arguments :
    outcome (arguments { loopScope with depth := 2 } [] [] driftTextWords) =
      .ok (([], driftTextArgs), placed 2 45 .rparen ")" :: inkWords 47) := by
  have hzero : Number.read? "0" = some 0 := by decide +kernel
  have hone : Number.read? "1" = some 1 := by decide +kernel
  rw [driftTextWords, outcome_numberWords (by decide) hzero rfl (.inl rfl), furtherArguments,
    if_pos (by rfl), outcome_numberWords (by decide) hone (by decide) (.inl rfl),
    furtherArguments, if_pos (by rfl),
    outcome_numberWords (by decide) hone (by decide) (.inl rfl), furtherArguments,
    if_pos (by rfl), outcome_numberWords (by decide) hzero (by decide) (.inr rfl),
    furtherArguments, if_neg (by decide)]
  rfl

/-- A program has a plan with a property that is computed. -/
theorem Program.exists_plan (program : Program) (registry : Registry) (P : Plan → Bool)
    (h : (program.plan registry {}).toOption.any P = true) :
    ∃ p, program.plan registry {} = .ok p ∧ P p = true := by
  cases hplan : program.plan registry {} with
  | error e =>
    rw [hplan] at h
    cases h
  | ok p =>
    rw [hplan] at h
    exact ⟨p, rfl, h⟩

end EffectChain
