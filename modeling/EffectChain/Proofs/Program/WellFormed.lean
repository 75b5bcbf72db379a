import Mathlib
import EffectChain.Proofs.Plan.Provenance
import EffectChain.Proofs.Program.Statements

/-!
# EffectChain.Proofs.Program.WellFormed

Programs that were read are well-formed, and what they can be reported for.

Checking a program reports a jump outside loops only where the tree has one, and it has
none: jumps are read inside loops only.  Everything else that is checked reports other
problems (`NoStray`), so the statements are gone through with the loops that are open
(`Surroundings.noStray_stmt`).

* `Surroundings.noStray_block` — well-formed statements are lowered without such a report;
* `Program.wellFormed_parse` — a source that is read is a well-formed program, and has a plan
  without such a report or none for another reason than a missing search order.
-/

namespace EffectChain

open Emitted

/-! ## diagnostics -/

/-- No diagnostic reports a jump outside loops. -/
def NoStray (ds : List Diagnostic) : Prop := ∀ d ∈ ds, ∀ word, d.problem ≠ .flowOutsideLoop word

/-- Only a jump outside loops has its code. -/
theorem Problem.code_eq_iff (p : Problem) :
    p.code = "S007" ↔ ∃ word, p = .flowOutsideLoop word := by
  constructor
  · intro h
    cases p with
    | flowOutsideLoop word => exact ⟨word, rfl⟩
    | _ => simp [code] at h
  · rintro ⟨word, rfl⟩
    rfl

@[simp] theorem noStray_nil : NoStray [] := by simp [NoStray]

@[simp] theorem noStray_cons {d : Diagnostic} {ds : List Diagnostic} :
    NoStray (d :: ds) ↔ (∀ word, d.problem ≠ .flowOutsideLoop word) ∧ NoStray ds :=
  List.forall_mem_cons

@[simp] theorem noStray_append {ds ds' : List Diagnostic} :
    NoStray (ds ++ ds') ↔ NoStray ds ∧ NoStray ds' :=
  List.forall_mem_append

/-! ## variables -/

namespace Bindings

variable (vars : Bindings)

theorem noStray_expandCall (c : Call) : NoStray (vars.expandCall c).2 := by
  unfold expandCall
  repeat' split
  all_goals simp

theorem noStray_expandBase (ch : Chain) : NoStray (vars.expandBase ch).2 := by
  unfold expandBase
  repeat' split
  all_goals simp

/-- Expanding a chain reports no stray jump. -/
theorem noStray_expandChain (ch : Chain) : NoStray (vars.expandChain ch).2 := by
  have hfold : ∀ (cs : List Call) (r : List Call × List Diagnostic), NoStray r.2 →
      NoStray (cs.foldl (fun r c =>
        (r.1 ++ (vars.expandCall c).1, r.2 ++ (vars.expandCall c).2)) r).2 := by
    intro cs
    induction cs with
    | nil => exact fun r h => h
    | cons c cs ih => exact fun r h => ih _ (noStray_append.2 ⟨h, vars.noStray_expandCall c⟩)
  exact hfold ch.calls _ (vars.noStray_expandBase ch)

/-- A binding reports no stray jump. -/
theorem noStray_bind (name : String) (value : Expr) : NoStray (vars.bind name value).2 := by
  unfold bind
  split
  · simp
  · rename_i c
    have hcall := vars.noStray_expandCall c
    split <;> rename_i heq <;> rwa [heq] at hcall
  · rename_i ch
    exact vars.noStray_expandChain ch
  · simp

end Bindings

/-! ## values -/

namespace Checker

variable (k : Checker)

@[simp] theorem problem_suggesting (p : Problem) (pos : Pos) (names : List String) :
    (k.suggesting p pos names).problem = p := rfl

theorem noStray_waveArgument (name : String) (o : Oscillator) (field : String) (e : Expr) :
    NoStray (waveArgument name o field e).2 := by
  unfold waveArgument
  split <;> simp [accepted, refused]

/-- The positional arguments of a wave report no stray jump. -/
theorem noStray_wavePositional (name : String) (o : Oscillator) (fields : List String)
    (es : List Expr) :
    NoStray (wavePositional name o fields es).2 := by
  fun_induction wavePositional name o fields es with
  | case1 => simp [accepted]
  | case2 => simp [refused]
  | case3 o f fs e es o' ds hfirst ih => exact ih
  | case4 => exact noStray_waveArgument _ _ _ _

/-- The keywords of a wave report no stray jump. -/
theorem noStray_waveKeywords (name : String) (o : Oscillator) (kws : List Keyword) :
    NoStray (k.waveKeywords name o kws).2 := by
  fun_induction waveKeywords k name o kws with
  | case1 => simp [accepted]
  | case2 o kw kws hfield o' ds hfirst ih => exact ih
  | case3 => exact noStray_waveArgument _ _ _ _
  | case4 => simp

/-- An oscillator reports no stray jump. -/
theorem noStray_oscillator (c : Call) : NoStray (k.oscillator c).2 := by
  unfold oscillator
  split
  · exact k.noStray_waveKeywords _ _ _
  · exact noStray_wavePositional _ _ _ _

/-- A scalar reports no stray jump. -/
theorem noStray_scalar (vars : Bindings) (e : Expr) (min max : Option Float) (what : String) :
    NoStray (k.scalar vars e min max what).2 := by
  unfold scalar
  split
  · simp [accepted]
  · simp [accepted]
  · split <;> simp [accepted, refused]
  · split <;> simp [accepted]
  · rename_i c hc
    have hwave := k.noStray_oscillator c
    split
    · split <;> rename_i heq <;> rwa [heq] at hwave
    · simp [refused]
  · simp [refused]

theorem noStray_memberArg (a : ArgSpec) (e : Expr) : NoStray (k.memberArg a e).2 := by
  unfold memberArg
  dsimp only
  repeat' split
  all_goals simp [accepted, refused, mismatch]

theorem noStray_numberArg (vars : Bindings) (a : ArgSpec) (e : Expr) :
    NoStray (k.numberArg vars a e).2 := by
  have hother := k.noStray_scalar vars e a.min a.max ("argument " ++ a.name)
  have hmember := k.noStray_memberArg a e
  unfold numberArg
  dsimp only
  repeat' split
  all_goals first
    | exact hother
    | exact hmember
    | simp [accepted, refused, mismatch]

theorem noStray_boolArg (vars : Bindings) (a : ArgSpec) (e : Expr) :
    NoStray (k.boolArg vars a e).2 := by
  unfold boolArg
  split
  · simp [accepted]
  · simp [accepted]
  · exact k.noStray_scalar _ _ _ _ _
  · exact k.noStray_scalar _ _ _ _ _
  · simp [mismatch, refused]

theorem noStray_vectorArg (a : ArgSpec) (e : Expr) : NoStray (vectorArg a e).2 := by
  unfold vectorArg
  dsimp only
  repeat' split
  all_goals simp [accepted, refused, mismatch]

end Checker

/-! ## calls and chains -/

namespace Surroundings

/-- Giving arguments by position reports no stray jump. -/
theorem noStray_positional (canonical : String) (given : Table Expr) (as : List ArgSpec)
    (es : List Expr) :
    NoStray (positional canonical given as es).2 := by
  fun_induction positional canonical given as es with
  | case1 => simp
  | case2 => simp
  | case3 given a as e es ih => exact ih

/-- Giving arguments by keyword reports no stray jump. -/
theorem noStray_keywords (k : Checker) (spec : OpSpec) (canonical : String) (given : Table Expr)
    (kws : List Keyword) : NoStray (keywords k spec canonical given kws).2 := by
  induction kws generalizing given with
  | nil => simp [keywords]
  | cons kw kws ih =>
    rw [keywords]
    split
    · exact ih _
    · exact noStray_cons.2 ⟨by simp, ih _⟩

theorem noStray_outTarget (vars : Bindings) (e : Expr) : NoStray (outTarget vars e).2 := by
  unfold outTarget
  repeat' split
  all_goals simp [Checker.accepted, Checker.refused]

variable {s : Surroundings} {sub : LowerChain}

/-- Chains given as arguments are lowered quietly. -/
def NoStraySub (sub : LowerChain) : Prop := ∀ base ch, NoStray (sub base ch).1.problems

/-- A surface argument reports no stray jump, if its nested chain does not. -/
theorem noStray_surfaceArg (hsub : NoStraySub sub) (base : Nat) (a : ArgSpec) (e : Expr) :
    NoStray (surfaceArg sub base a e).1.problems := by
  have hwrong : NoStray (Checker.mismatch a e).2 := by simp [Checker.mismatch, Checker.refused]
  unfold surfaceArg
  dsimp only
  split
  · exact noStray_nil
  · split
    · exact noStray_nil
    · exact hwrong
  · exact hsub _ _
  · exact hsub _ _
  · simp
  · exact hwrong

/-- An argument reports no stray jump, if its nested chain does not. -/
theorem noStray_argument (hsub : NoStraySub sub) (base : Nat) (a : ArgSpec) (e : Expr) :
    NoStray (s.argument sub base a e).1.problems := by
  unfold argument
  generalize s.vars.deref e = e
  cases a.type with
  | surface => exact noStray_surfaceArg hsub base a e
  | float | int => exact s.checker.noStray_numberArg s.vars a e
  | boolean => exact s.checker.noStray_boolArg s.vars a e
  | string =>
    dsimp only
    split
    · exact noStray_nil
    · simp [Checker.mismatch, Checker.refused]
  | color | vec3 | vec4 => exact Checker.noStray_vectorArg a e
  | member => exact s.checker.noStray_memberArg a e

/-- Taking one more argument reports no stray jump. -/
theorem noStray_take (hsub : NoStraySub sub) (base : Nat) (given : Table Expr) (a : ArgSpec)
    {r : Arguments} (h : NoStray r.out.problems) :
    NoStray (Arguments.take s sub base given r a).out.problems := by
  have hwritten := fun e => noStray_argument (s := s) hsub (base + r.out.steps.length) a e
  rcases take_cases s sub base given r a with ⟨e, out, v, hget, harg, htake⟩ | ⟨out, hout, htake⟩
  · have hmore := hwritten e
    rw [harg] at hmore
    rw [htake]
    exact noStray_append.2 ⟨h, hmore⟩
  · have hmore : NoStray out.problems := by
      rcases hout with ⟨-, rfl⟩ | ⟨e, hget, harg⟩
      · exact noStray_nil
      · have hmore := hwritten e
        rwa [harg] at hmore
    rcases htake with ⟨v, -, htake⟩ | htake <;> rw [htake] <;> exact noStray_append.2 ⟨h, hmore⟩

/-- The arguments of a call report no stray jump. -/
theorem noStray_arguments (hsub : NoStraySub sub) (base : Nat) (c : Call) (spec : OpSpec) :
    NoStray (s.arguments sub base c spec).out.problems := by
  have hfold : ∀ (as : List ArgSpec) (r : Arguments), NoStray r.out.problems →
      NoStray (as.foldl (Arguments.take s sub base (s.given c spec)) r).out.problems := by
    intro as
    induction as with
    | nil => exact fun r h => h
    | cons a as ih => exact fun r h => ih _ (noStray_take hsub base _ a h)
  exact hfold spec.args _
    (noStray_append.2 ⟨noStray_positional _ _ _ _, noStray_keywords _ _ _ _ _⟩)

/-- One more call of a chain reports no stray jump. -/
theorem noStray_next (hsub : NoStraySub sub) (base : Nat) (c : Call) {p : Progress}
    (h : NoStray p.out.problems) :
    NoStray (Progress.next s sub base p c).out.problems := by
  unfold Progress.next
  dsimp only
  split
  · simpa using h
  · rename_i spec hspec
    split
    · simpa using h
    · split
      · simpa using h
      · rw [call_eq]
        simpa using ⟨h, noStray_arguments hsub (base + p.out.steps.length) c spec⟩

/-- A chain reports no stray jump, if its nested chains do not. -/
theorem noStray_chainWith (hsub : NoStraySub sub) (isArgument : Bool) (base : Nat) (ch : Chain) :
    NoStray (s.chainWith sub isArgument base ch).1.problems := by
  have hfold : ∀ (cs : List Call) (p : Progress), NoStray p.out.problems →
      NoStray (cs.foldl (Progress.next s sub base) p).out.problems := by
    intro cs
    induction cs with
    | nil => exact fun p h => h
    | cons c cs ih => exact fun p h => ih _ (noStray_next hsub base c h)
  have hcalls := hfold (s.vars.expandChain ch).1 { out := notes (s.vars.expandChain ch).2 }
    (s.vars.noStray_expandChain ch)
  unfold chainWith
  dsimp only
  generalize (s.vars.expandChain ch).1.foldl (Progress.next s sub base) _ = p at hcalls
  split
  · exact hcalls
  · split
    · rename_i e he
      have htarget := noStray_outTarget s.vars e
      split <;> rename_i heq <;> rw [heq] at htarget <;> exact noStray_append.2 ⟨hcalls, htarget⟩
    · split
      · split
        · exact hcalls
        · simpa using hcalls
      · exact hcalls

/-- No chain reports a stray jump. -/
theorem noStray_chain (base : Nat) (ch : Chain) : NoStray (s.chain base ch).problems := by
  have hsub : ∀ depth, NoStraySub (s.subchain depth) := by
    intro depth
    induction depth with
    | zero => exact fun _ _ => noStray_nil
    | succ depth ih => exact fun base ch => noStray_chainWith ih true base ch
  exact noStray_chainWith (hsub _) false base ch

/-! ## statements -/

/-- The count of a loop reports no stray jump. -/
theorem noStray_loopCount (s : Surroundings) (count : Option Expr) (pos : Pos) :
    NoStray (s.loopCount count pos).2 := by
  unfold loopCount
  split
  · exact noStray_nil
  · rename_i e
    have hscalar := s.checker.noStray_scalar s.vars e none none "loop count"
    split <;> rename_i heq <;> rw [heq] at hscalar
    · dsimp only
      split
      · exact hscalar
      · split
        · simpa using hscalar
        · exact hscalar
    · exact hscalar
    · simpa using hscalar
    · exact hscalar

/-- Repeating a body reports no stray jump of its own. -/
theorem noStray_repeatBody {count : Nat} {factor : Option Dynamic} {pos : Pos} {body : Emitted}
    (h : NoStray body.problems) : NoStray (repeatBody count factor pos body).problems := by
  unfold repeatBody
  dsimp only
  rw [problems_append, problems_append, noStray_append, noStray_append]
  refine ⟨⟨h, ?_⟩, ?_⟩
  · rw [problems_notes]
    intro d hd
    obtain ⟨r, -, rfl⟩ := List.mem_map.1 hd
    simp
  · split <;> simp

variable {ts : List Token}

mutual

/-- A well-formed statement reports no stray jump: its jumps stand inside of loops. -/
theorem noStray_stmt (st : Stmt) {inLoop : Bool} (s : Surroundings) (base : Nat)
    (hst : st.Formed ts inLoop) (hs : inLoop = true → s.loops ≠ 0) :
    NoStray (s.stmt base st).out.problems := by
  cases hst with
  | bind h =>
    rw [stmt]
    exact s.vars.noStray_bind _ _
  | run h =>
    rw [stmt]
    exact noStray_chain base _
  | @choose _ arms otherwise pos hconds harms hother =>
    cases otherwise with
    | none =>
      rw [stmt]
      exact noStray_branches arms s base [] {} _ harms hs noStray_nil
        fun s' negated before _ hbefore => hbefore
    | some body =>
      rw [stmt]
      refine noStray_branches arms s base [] {} _ harms hs noStray_nil
        fun s' negated before hloops hbefore => ?_
      refine noStray_append.2 ⟨hbefore, noStray_block body _ _ (hother body rfl) ?_⟩
      exact fun h => hloops ▸ hs h
  | @repeated _ count body pos hcount hbody =>
    have hds := noStray_loopCount s count pos
    have hr := noStray_block body { s with loops := s.loops + 1 } base hbody fun _ =>
      Nat.succ_ne_zero _
    rw [stmt]
    split <;> rename_i heq <;> rw [heq] at hds
    · exact hds
    · simpa using hds
    · dsimp only
      split
      · exact noStray_append.2 ⟨hds, hr⟩
      · exact noStray_append.2 ⟨hds, hr⟩
      · exact noStray_append.2 ⟨hds, noStray_repeatBody hr⟩
  | leaveLoop =>
    rw [stmt, if_neg (hs rfl)]
    exact noStray_nil
  | nextRound =>
    rw [stmt, if_neg (hs rfl)]
    exact noStray_nil
  | finish =>
    rw [stmt]
    exact noStray_nil

/-- A well-formed block reports no stray jump. -/
theorem noStray_block (body : List Stmt) {inLoop : Bool} (s : Surroundings) (base : Nat)
    (hbody : ∀ st ∈ body, st.Formed ts inLoop) (hs : inLoop = true → s.loops ≠ 0) :
    NoStray (s.block base body).out.problems := by
  cases body with
  | nil =>
    rw [block]
    exact noStray_nil
  | cons st rest =>
    obtain ⟨hst, hrest⟩ := List.forall_mem_cons.1 hbody
    have hfirst := noStray_stmt st s base hst hs
    rw [block]
    dsimp only
    split
    · exact noStray_append.2
        ⟨hfirst, noStray_block rest { s with vars := (s.stmt base st).vars } _ hrest hs⟩
    · refine noStray_append.2 ⟨hfirst, fun d hd => ?_⟩
      obtain ⟨x, -, rfl⟩ := List.mem_map.1 hd
      simp

/-- The well-formed arms of a choice report no stray jump. -/
theorem noStray_branches (arms : List Branch) {inLoop : Bool} (s : Surroundings) (base : Nat)
    (negated : List Dynamic) (before : Emitted)
    (otherwise : Surroundings → List Dynamic → Emitted → Lowered)
    (harms : ∀ arm ∈ arms, ∀ st ∈ arm.body, st.Formed ts inLoop) (hs : inLoop = true → s.loops ≠ 0)
    (hbefore : NoStray before.problems)
    (hotherwise : ∀ s' negated before, s'.loops = s.loops → NoStray before.problems →
      NoStray (otherwise s' negated before).out.problems) :
    NoStray (s.branches base negated before otherwise arms).out.problems := by
  cases arms with
  | nil =>
    rw [branches]
    exact hotherwise s negated before rfl hbefore
  | cons arm rest =>
    obtain ⟨cond, body, pos⟩ := arm
    obtain ⟨hbody, hrest⟩ := List.forall_mem_cons.1 harms
    have hnotes := s.checker.noStray_scalar s.vars cond none none "condition"
    cases hcond : s.checker.scalar s.vars cond none none "condition" with
    | mk v ds =>
      rw [hcond] at hnotes
      have hmore : NoStray (before ++ notes ds).problems := noStray_append.2 ⟨hbefore, hnotes⟩
      cases v with
      | none =>
        rw [branches_of_none hcond]
        exact noStray_branches rest s base negated _ otherwise hrest hs hmore hotherwise
      | some v =>
        by_cases hv : ∃ d, v = .dynamic d
        · obtain ⟨d, rfl⟩ := hv
          rw [branches_of_dynamic hcond]
          refine noStray_branches rest { s with vars := _ } base _ _ otherwise hrest hs ?_
            hotherwise
          exact noStray_append.2 ⟨hmore, noStray_block body _ _ hbody hs⟩
        · rw [branches_of_static hcond fun d hd => hv ⟨d, hd⟩]
          split
          · exact noStray_append.2 ⟨hmore, noStray_block body _ _ hbody hs⟩
          · exact noStray_branches rest s base negated _ otherwise hrest hs hmore hotherwise

end

end Surroundings

/-- A source that is read is a well-formed program: its chains, its calls, its jumps, its
names and its render directive are as they are to be.  So checking it never misses a search
order and never reports a jump outside loops. -/
theorem Program.wellFormed_parse {options : Options} {source : Bytes} {p : Program}
    (h : Program.parse options source = .ok p) :
    (∃ ts last, Token.scan source = .ok (ts ++ [last]) ∧ last.kind = .endOfInput ∧
      p.WellFormed ts) ∧
      ∀ registry options', p.plan registry options' ≠ .error .noSearch ∧
        ∀ plan, p.plan registry options' = .ok plan → ∀ d ∈ plan.diagnostics,
        d.problem.code ≠ "S007" := by
  obtain ⟨ts, last, hscan, hlast, hp⟩ := exists_wellFormed h
  refine ⟨⟨ts, last, hscan, hlast, hp⟩, fun registry options' => ?_⟩
  have hsearch : p.search.isEmpty = false := by simpa using hp.search.1
  have hstray :=
    Surroundings.noStray_block p.statements { checker := { registry, suggest := options'.suggest } }
      0
    hp.statements nofun
  unfold plan
  rw [hsearch, if_neg Bool.false_ne_true]
  dsimp only
  split
  · exact ⟨nofun, nofun⟩
  · refine ⟨nofun, fun plan hplan d hd hcode => ?_⟩
    obtain rfl := Except.ok.inj hplan
    obtain ⟨word, hword⟩ := (Problem.code_eq_iff _).1 hcode
    exact hstray d hd word hword

/-! ## a hum -/

/-- A binding, a loop that is left, and a render directive. -/
def humSource : Bytes :=
  .ofString "search a let x = hum() loop \x7b x.dim(soft: true).out(o1) break \x7d render(o1)"

def humTokens : List Token :=
  let token (col : Nat) (kind : TokenKind) (word : String) : Token :=
    ⟨kind, Bytes.ofString word, ⟨1, col⟩⟩
  [token 1 .keyword "search", token 8 .identifier "a", token 10 .keyword "let",
    token 14 .identifier "x", token 16 .assign "=", token 18 .identifier "hum",
    token 21 .lparen "(", token 22 .rparen ")", token 24 .keyword "loop", token 29 .lbrace "\x7b",
    token 31 .identifier "x", token 32 .dot ".", token 33 .identifier "dim", token 36 .lparen "(",
    token 37 .identifier "soft", token 41 .colon ":", token 43 .keyword "true",
    token 47 .rparen ")", token 48 .dot ".", token 49 .identifier "out", token 52 .lparen "(",
    token 53 .surface "o1", token 55 .rparen ")", token 57 .keyword "break",
    token 63 .rbrace "\x7d", token 65 .keyword "render", token 71 .lparen "(",
    token 72 .surface "o1", token 74 .rparen ")", token 75 .endOfInput ""]

def humProgram : Program where
  search := ["a"]
  statements :=
    let ns := { resolved := true, search := ["a"] }
    let hum : Call := { name := "hum", ns, pos := ⟨1, 18⟩ }
    let dim : Call :=
      { name := "dim", kwargs := [⟨"soft", .bool true ⟨1, 43⟩, ⟨1, 37⟩⟩], ns, pos := ⟨1, 33⟩ }
    let out := some (.surface ⟨.output, 1⟩ ⟨1, 53⟩)
    [.bind "x" (.call hum) ⟨1, 10⟩,
      .repeated none [.run { base := some "x", calls := [dim], out, pos := ⟨1, 31⟩ } ⟨1, 31⟩,
        .leaveLoop ⟨1, 57⟩]
        ⟨1, 24⟩]
  vars := ["x"]
  render := some (⟨.output, 1⟩, ⟨1, 72⟩)

theorem hum_parse : Program.parse {} humSource = .ok humProgram := by
  have hscan : Token.scan humSource = .ok humTokens := by
    rw [show humSource = _ from Bytes.ofString_ofList _]
    decide +kernel
  have htokens : Program.ofTokens {} humTokens = .ok humProgram := by cbv
  have hboth : (Token.scan humSource >>= Program.ofTokens {}) = .ok humProgram := by
    rw [hscan]
    exact htokens
  rw [Program.parse, hboth]

/-- A program with a loop, a choice and a jump is well-formed, and plans without a stray jump. -/
theorem hum_wellFormed : Program.parse {} humSource = .ok humProgram ∧
    (∃ ts last, Token.scan humSource = .ok (ts ++ [last]) ∧ last.kind = .endOfInput ∧
      humProgram.WellFormed ts) ∧
      ∀ registry options', humProgram.plan registry options' ≠ .error .noSearch ∧
        ∀ plan, humProgram.plan registry options' = .ok plan → ∀ d ∈ plan.diagnostics,
        d.problem.code ≠ "S007" :=
  ⟨hum_parse, Program.wellFormed_parse hum_parse⟩

end EffectChain
