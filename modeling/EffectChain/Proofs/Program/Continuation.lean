import EffectChain.Proofs.Program.Extension
import EffectChain.Proofs.Token.Separators
import Mathlib

/-!
# EffectChain.Proofs.Program.Continuation

Programs that are continued.

The statements of a program are read one after the other, so a program with more tokens behind
(`Parser.Behind`) is read as the program, and then what is behind
(`Parser.extends_statements`).  The one exception is a name that is bound last: with a
parenthesis behind it becomes a call.

A newline and a semicolon end every token and every gap alike, unless the text before them ends in
the body of a closure or in a line comment (`Lexer.endsOpen`).  A program and the statements that
continue it are then the same program with either between them, up to places
(`semicolon_as_newline`).  The body of a closure ends at a newline and goes on past a semicolon
(`quill_swallowed`).

* `Parser.goesOn_eq_false_of_statement` — no statement begins with a token that goes on;
* `Program.ofTokens_semicolon` — a semicolon between a program and the statements that continue it
  changes nothing but places.
-/

namespace EffectChain

/-- A token that lets an expression go on is an operator, a dot, a comma or an arm of a choice. -/
theorem Token.cases_of_goesOn {t : Token} (h : t.goesOn = true) :
    t.kind ∈ [TokenKind.dot, .plus, .minus, .star, .slash, .comma] ∨
      t.kind = .keyword ∧ (t.word = "elif" ∨ t.word = "else") := by
  simp only [goesOn, isWord, Bool.or_eq_true, Bool.and_eq_true, decide_eq_true_eq,
    List.contains_eq_mem] at h
  obtain (h | h) | h := h
  · exact .inl h
  · exact .inr ⟨h.1, .inl h.2⟩
  · exact .inr ⟨h.1, .inr h.2⟩

namespace Parser

open Scope

variable {b : Behind} {s : Scope}

/-! ## where statements begin -/

theorem chainOf_number {pos : Pos} {e : Expr} {st : Stmt} (h : chainOf pos e = .ok st) :
    ¬ e.IsName ∧ ∀ v raw p, e ≠ .number v raw p := by
  match e, h with
  | .call _, _ | .chain _, _ => exact ⟨id, fun _ _ _ hnumber => by cases hnumber⟩

/-- An expression that begins with a token that goes on is a number. -/
theorem exists_number_of_expr {t : Token} (ht : t.goesOn = true) {rest : List Token}
    {x : Expr × List Token} (h : outcome (expr s (t :: rest)) = .ok x) :
    ∃ v raw pos, x.1 = .number v raw pos := by
  rw [outcome_expr] at h
  obtain ⟨inner, -, h⟩ := exists_of_bind h
  rw [outcome_additive] at h
  obtain ⟨l, hl, h⟩ := exists_of_bind h
  rw [outcome_multiplicative] at hl
  obtain ⟨o, ho, hl⟩ := exists_of_bind hl
  have hnumber : ∃ v raw pos, o.1 = .number v raw pos := by
    rw [outcome_unary] at ho
    split at ho
    · obtain ⟨r, -, ho⟩ := exists_of_bind ho
      obtain ⟨v, hv, ho⟩ := exists_of_bind ho
      obtain rfl := Except.ok.inj ho
      unfold applySign at hv
      split at hv
      · split at hv <;> exact ⟨_, _, _, (Except.ok.inj hv).symm⟩
      · cases hv
    · rename_i hsign
      rw [outcome_primary] at ho
      obtain hkind | ⟨hkind, hword⟩ := Token.cases_of_goesOn ht
      · simp only [List.mem_cons, List.not_mem_nil, or_false] at hkind
        obtain hk | hk | hk | hk | hk | hk := hkind <;> rw [hk] at ho hsign
        · cases ho
        · exact absurd rfl hsign
        · exact absurd rfl hsign
        all_goals cases ho
      · rw [hkind] at ho
        dsimp only at ho
        obtain hw | hw := hword <;> rw [hw] at ho <;> cases ho
  have hproducts : ∃ v raw pos, l.1 = .number v raw pos :=
    ((operators_products inner).cases hl).elim (fun heq => heq ▸ hnumber) id
  exact ((operators_sums inner).cases h).elim (fun heq => heq ▸ hproducts) id

/-- No statement begins with a token that goes on with what is before it. -/
theorem goesOn_eq_false_of_statement {found : Found} {t : Token} {rest : List Token}
    {x : (List Stmt × Found) × List Token}
    (h : outcome (statement s found (t :: rest)) = .ok x) : t.goesOn = false := by
  by_contra hgoes
  have hgoes : t.goesOn = true := by simpa using hgoes
  have hword : ∀ w, w ≠ "elif" → w ≠ "else" → t.isWord w = false := by
    intro w helif helse
    obtain hkind | ⟨hkind, hword⟩ := Token.cases_of_goesOn hgoes
    · simp only [List.mem_cons, List.not_mem_nil, or_false] at hkind
      obtain hk | hk | hk | hk | hk | hk := hkind <;> simp [Token.isWord, hk]
    · obtain hw | hw := hword <;> simp [Token.isWord, hw, helif.symm, helse.symm]
  rw [outcome_statement] at h
  simp only [hword _ (show "let" ≠ "elif" by decide) (by decide),
    hword _ (show "if" ≠ "elif" by decide) (by decide), hword _ (show "loop" ≠ "elif" by decide)
      (by decide), hword _ (show "break" ≠ "elif" by decide) (by decide),
    hword _ (show "continue" ≠ "elif" by decide) (by decide),
    hword _ (show "return" ≠ "elif" by decide) (by decide),
    hword _ (show "render" ≠ "elif" by decide) (by decide),
    hword _ (show "namespace" ≠ "elif" by decide) (by decide),
      hword _ (show "search" ≠ "elif" by decide) (by decide), Bool.or_self, Bool.false_eq_true,
        if_false] at h
  obtain ⟨st, hst, -⟩ := exists_of_bind h
  rw [outcome_chainStatement] at hst
  obtain ⟨e, he, hst⟩ := exists_of_bind hst
  obtain ⟨st', hst', -⟩ := exists_of_bind hst
  obtain ⟨v, raw, pos, hnumber⟩ := exists_number_of_expr hgoes he
  exact (chainOf_number hst').2 v raw pos hnumber

/-! ## semicolons -/

/-- Alike tokens skip their semicolons together. -/
theorem skipSemicolons_alike {ts ts' : List Token} (h : ts.Forall₂ Token.Alike ts')
    (extra : List Token) :
    skipSemicolons ts = [] ∧ skipSemicolons (ts' ++ extra) = skipSemicolons extra ∨
      ∃ t more t' more', skipSemicolons ts = t :: more ∧ skipSemicolons (ts' ++ extra) = t' ::
        more' ++ extra ∧
        t.Alike t' ∧ more.Forall₂ Token.Alike more' := by
  induction h with
  | nil => exact .inl ⟨rfl, rfl⟩
  | @cons t t' ts ts' ht hts ih =>
    unfold skipSemicolons at ih ⊢
    by_cases hkind : t.kind = .semicolon
    · rw [List.dropWhile_cons_of_pos (by simpa using hkind), List.cons_append,
        List.dropWhile_cons_of_pos (by simpa [ht.kind] using hkind)]
      exact ih
    · rw [List.dropWhile_cons_of_neg (by simpa using hkind), List.cons_append,
        List.dropWhile_cons_of_neg (by simpa [ht.kind] using hkind)]
      exact .inr ⟨t, ts, t', ts', rfl, rfl, ht, hts⟩

/-! ## statements with more behind -/

/-- The same names are bound and the same target is directed. -/
def AlikeFound (f f' : Found) : Prop :=
  f'.vars = f.vars ∧ f'.render.map Prod.fst = f.render.map Prod.fst

/-- The same statements at other places. -/
def AlikeBlock (x x' : List Stmt × Found) : Prop :=
  x'.1.map Stmt.unplaced = x.1.map Stmt.unplaced ∧ AlikeFound x.2 x'.2

def AlikeChoice (x x' : Stmt × Found) : Prop := x'.1.unplaced = x.1.unplaced ∧ AlikeFound x.2 x'.2

def AlikeStmt (st st' : Stmt) : Prop := st'.unplaced = st.unplaced

theorem AlikeBlock.single {st st' : Stmt} {f f' : Found} (hst : AlikeStmt st st')
    (hf : AlikeFound f f') :
    AlikeBlock ([st], f) ([st'], f') := ⟨congrArg (fun x => [x]) hst, hf⟩

theorem AlikeBlock.append {sts sts' : List Stmt} {f f' : Found} {x x' : List Stmt × Found}
    (h : AlikeBlock (sts, f) (sts', f'))
    (hx : AlikeBlock x x') : AlikeBlock (sts ++ x.1, x.2) (sts' ++ x'.1, x'.2) :=
  ⟨by rw [List.map_append, List.map_append, h.1, hx.1], hx.2⟩

/-- The statements of one statement of the source, unless they bind a name that becomes a call. -/
def ExtendsStatement (b : Behind) (r r' : Except SyntaxError ((List Stmt × Found) × List Token)) :
    Prop :=
  ∀ x rest, r = .ok (x, rest) → (∀ t ∈ rest.head?, t.kind ≠ .dot) →
    (∃ x' rest', r' = .ok (x', rest' ++ b.tokens) ∧ AlikeBlock x x' ∧
      rest.Forall₂ Token.Alike rest') ∨
      rest = [] ∧ b.next.kind = .lparen ∧
        ∃ st, x.1 = [st] ∧ ∀ y, r' = .ok y → ∃ st', y.1.1 = [st'] ∧ st'.unplaced ≠ st.unplaced

theorem ExtendsStatement.of_extends {r r' : Except SyntaxError ((List Stmt × Found) × List Token)}
    (h : Extends b AlikeBlock r r') : ExtendsStatement b r r' :=
  fun x rest hread _ => .inl (h x rest hread)

/-- Two readings that choose by one condition go on alike when they do in both cases. -/
theorem ExtendsStatement.ite {c : Prop} [Decidable c]
    {r₁ r₁' r₂ r₂' : Except SyntaxError ((List Stmt × Found) × List Token)}
    (h₁ : ExtendsStatement b r₁ r₁') (h₂ : ExtendsStatement b r₂ r₂') :
    ExtendsStatement b (if c then r₁ else r₂) (if c then r₁' else r₂') := by
  split
  · exact h₁
  · exact h₂

theorem isName_unplaced {e : Expr} : e.unplaced.IsName ↔ e.IsName := by
  cases e <;> simp only [Expr.unplaced, Expr.IsName]

/-- A binding reads on the same whatever follows it on the next line. -/
theorem extends_letBinding (hs : s.AtEnd) {found found' : Found} (hfound : AlikeFound found found')
    (pos pos' : Pos) {ts ts' : List Token} (h : ts.Forall₂ Token.Alike ts') :
    ExtendsStatement b
      (outcome (letBinding s pos ts) >>= fun x =>
        let vars := if found.vars.contains x.1.1 then found.vars else found.vars ++ [x.1.1]
        .ok (([x.1.2], { found with vars }), x.2))
      (outcome (letBinding (s.before b) pos' (ts' ++ b.tokens)) >>= fun x =>
        let vars := if found'.vars.contains x.1.1 then found'.vars else found'.vars ++ [x.1.1]
        .ok (([x.1.2], { found' with vars }), x.2)) := by
  intro x rest hread hrest
  obtain ⟨⟨⟨name, st⟩, others⟩, hlet, hread⟩ := exists_of_bind hread
  obtain ⟨rfl, rfl⟩ := Prod.mk.inj (Except.ok.inj hread)
  rw [outcome_letBinding] at hlet
  obtain ⟨⟨t, more⟩, ht, hlet⟩ := exists_of_bind hlet
  obtain ⟨⟨eq, inner⟩, heq, hlet⟩ := exists_of_bind hlet
  obtain ⟨⟨e, others⟩, he, hlet⟩ := exists_of_bind hlet
  obtain ⟨⟨rfl, rfl⟩, rfl⟩ := by simpa using hlet
  obtain ⟨t', more', ht', htlike, hmore⟩ := extends_expect (b := b) s .identifier h t more ht
  obtain ⟨eq', inner', heq', -, hinner⟩ := extends_expect (b := b) s .assign hmore eq inner heq
  have hlet' : outcome (letBinding (s.before b) pos' (ts' ++ b.tokens)) =
      outcome (expr (s.before b) (inner' ++ b.tokens)) >>= fun v =>
        .ok ((t'.word, .bind t'.word v.1 pos'), v.2) := by
    rw [outcome_letBinding, ht']
    dsimp only [Bind.bind, Except.bind]
    rw [heq']
  rw [hlet', htlike.word]
  obtain ⟨e', rest', he', hlike, hrest'⟩ | ⟨hnil, hname, hparen, hother⟩ :=
    extends_expr (b := b) s hs hinner e _ he hrest
  · rw [he']
    refine .inl ⟨_, rest', rfl, .single ?_ ⟨?_, hfound.2⟩, hrest'⟩
    · rw [AlikeStmt, Stmt.unplaced, Stmt.unplaced, hlike]
    · dsimp only
      rw [hfound.1]
  · refine .inr ⟨hnil, hparen, _, rfl, fun y hy => ?_⟩
    obtain ⟨z, hz, hy⟩ := exists_of_bind hy
    obtain ⟨⟨e', rest'⟩, he', hz⟩ := exists_of_bind hz
    obtain rfl := Except.ok.inj hz
    obtain rfl := Except.ok.inj hy
    refine ⟨_, rfl, fun hsame => hother e' rest' he' ?_⟩
    have hvalue : e'.unplaced = e.unplaced := by
      rw [Stmt.unplaced, Stmt.unplaced, Stmt.bind.injEq] at hsame
      exact hsame.2.1
    rw [← isName_unplaced, hvalue, isName_unplaced]
    exact hname

/-- A `render` reads on the same whatever follows it. -/
theorem extends_renderTarget {found found' : Found} (hfound : AlikeFound found found')
    (pos pos' : Pos) {ts ts' : List Token} (h : ts.Forall₂ Token.Alike ts') :
    Extends b (fun x x' => x'.1 = x.1) (outcome (renderTarget s found pos ts))
      (outcome (renderTarget (s.before b) found' pos' (ts' ++ b.tokens))) := by
  have hsome : found'.render.isSome = found.render.isSome := by
    rw [← Option.isSome_map (f := Prod.fst), hfound.2, Option.isSome_map]
  have hnested : (s.before b).nested = s.nested := rfl
  rw [outcome_renderTarget, outcome_renderTarget, hsome, hnested]
  split
  · exact .error
  · split
    · exact .error
    · refine .bind (extends_expect s .lparen h) fun paren paren' more more' _ _ hmore => ?_
      refine .bind (extends_expect s .surface hmore)
        fun target target' rest rest' _ htarget hrest => ?_
      refine extends_closed s ?_ hrest
      unfold surfaceOf
      rw [htarget.word]

theorem exists_call {e : Expr} {c : Call} (h : e.unplaced = .call c) :
    ∃ c', e = .call c' ∧ c'.unplaced = c := by
  cases e
  case call c' => exact ⟨c', rfl, Expr.call.inj ((Expr.unplaced_call c').symm.trans h)⟩
  all_goals simp [Expr.unplaced] at h

/-- A chain is a chain before its places are forgotten. -/
theorem exists_chain {e : Expr} {ch : Chain} (h : e.unplaced = .chain ch) :
    ∃ ch', e = .chain ch' ∧ ch'.unplaced = ch := by
  cases e
  case chain ch' => exact ⟨ch', rfl, Expr.chain.inj ((Expr.unplaced_chain ch').symm.trans h)⟩
  all_goals simp [Expr.unplaced] at h

/-- Alike expressions stand as alike statements. -/
theorem chainOf_alike {e e' : Expr} (he : AlikeExpr e e') {pos : Pos} {st : Stmt}
    (h : chainOf pos e = .ok st) (pos' : Pos) :
    ∃ st', chainOf pos' e' = .ok st' ∧ AlikeStmt st st' := by
  match e, he, h with
  | .call c, he, h =>
    obtain rfl := Except.ok.inj h
    obtain ⟨c', rfl, hc⟩ := exists_call (he.trans (Expr.unplaced_call c))
    refine ⟨_, rfl, ?_⟩
    rw [AlikeStmt, Stmt.unplaced, Stmt.unplaced, alikeChain_single hc]
  | .chain ch, he, h =>
    obtain rfl := Except.ok.inj h
    obtain ⟨ch', rfl, hch⟩ := exists_chain (he.trans (Expr.unplaced_chain ch))
    refine ⟨_, rfl, ?_⟩
    rw [AlikeStmt, Stmt.unplaced, Stmt.unplaced, hch]

/-- A chain as a statement reads on the same whatever follows it on the next line. -/
theorem extends_chainStatement (hs : s.AtEnd) {found found' : Found}
    (hfound : AlikeFound found found') {ts ts' : List Token} (h : ts.Forall₂ Token.Alike ts') :
    ExtendsStatement b (outcome (chainStatement s ts) >>= fun st => .ok (([st.1], found), st.2))
      (outcome (chainStatement (s.before b) (ts' ++ b.tokens)) >>= fun st =>
        .ok (([st.1], found'), st.2)) := by
  intro x rest hread hrest
  obtain ⟨⟨st, others⟩, hst, hread⟩ := exists_of_bind hread
  obtain ⟨rfl, rfl⟩ := Prod.mk.inj (Except.ok.inj hread)
  rw [outcome_chainStatement] at hst
  obtain ⟨⟨e, more⟩, he, hst⟩ := exists_of_bind hst
  obtain ⟨st', hchain, hst⟩ := exists_of_bind hst
  obtain ⟨rfl, rfl⟩ := Prod.mk.inj (Except.ok.inj hst)
  obtain ⟨e', rest', he', hlike, hrest'⟩ | ⟨-, hname, -⟩ :=
    extends_expr (b := b) s hs h e _ he hrest
  swap
  · exact absurd hname (chainOf_number hchain).1
  obtain ⟨st'', hchain', hsame⟩ :=
    chainOf_alike hlike hchain ((s.before b).peek (ts' ++ b.tokens)).pos
  refine .inl ⟨([st''], found'), rest', ?_, .single hsame hfound, hrest'⟩
  rw [outcome_chainStatement, he']
  dsimp only [Bind.bind, Except.bind]
  rw [hchain']

/-- The arms of a conditional at other places. -/
def AlikeArms (arms arms' : List Branch) : Prop :=
  arms'.map BranchOf.unplaced = arms.map BranchOf.unplaced

/-- Arms grow alike. -/
theorem AlikeArms.append {arms arms' : List Branch} {e e' : Expr} {sts sts' : List Stmt}
    (h : AlikeArms arms arms') (he : AlikeExpr e e')
    (hsts : sts'.map Stmt.unplaced = sts.map Stmt.unplaced) (pos pos' : Pos) :
    AlikeArms (arms ++ [⟨e, sts, pos⟩]) (arms' ++ [⟨e', sts', pos'⟩]) := by
  rw [AlikeArms, List.map_append, List.map_append, h, List.map_singleton, List.map_singleton,
    BranchOf.unplaced, BranchOf.unplaced, he, hsts]

theorem AlikeArms.choose {arms arms' : List Branch} (h : AlikeArms arms arms') (pos pos' : Pos) :
    AlikeStmt (.choose arms none pos) (.choose arms' none pos') := by
  rw [AlikeStmt, Stmt.unplaced_choose, Stmt.unplaced_choose, h]

theorem AlikeArms.otherwise {arms arms' : List Branch} {sts sts' : List Stmt}
    (h : AlikeArms arms arms') (hsts : sts'.map Stmt.unplaced = sts.map Stmt.unplaced)
    (pos pos' : Pos) :
    AlikeStmt (.choose arms (some sts) pos) (.choose arms' (some sts') pos') := by
  rw [AlikeStmt, Stmt.unplaced_choose, Stmt.unplaced_choose, h, Option.map_some,
    Option.map_some, hsts]

/-- Alike counts and bodies make alike loops. -/
theorem alikeStmt_repeated {count count' : Option Expr} {sts sts' : List Stmt}
    (hcount : count'.map Expr.unplaced = count.map Expr.unplaced)
    (hsts : sts'.map Stmt.unplaced = sts.map Stmt.unplaced)
    (pos pos' : Pos) : AlikeStmt (.repeated count sts pos) (.repeated count' sts' pos') := by
  rw [AlikeStmt, Stmt.unplaced_repeated, Stmt.unplaced_repeated, hcount, hsts]

/-- What stands behind is no further arm. -/
theorem Behind.isWord_next (b : Behind) {w : String} (hw : w = "elif" ∨ w = "else") :
    b.next.isWord w = false := by
  have hstops := b.stops
  simp only [Token.goesOn, Bool.or_eq_false_iff] at hstops
  rcases hw with rfl | rfl
  · exact hstops.1.2
  · exact hstops.2

/-- No arm is read from what stands behind. -/
theorem furtherArms_behind (start : Pos) (arms : List Branch) (found : Found) :
    furtherArms s start arms found b.tokens = .ok ((.choose arms none start, found), b.tokens) := by
  cases hb : b.tokens with
  | nil => rfl
  | cons t more =>
    have hnext : b.next = t := by rw [Behind.next, hb, List.headD_cons]
    have helif := b.isWord_next (.inl rfl)
    have helse := b.isWord_next (.inr rfl)
    rw [hnext] at helif helse
    rw [furtherArms, if_neg (by simp [helif]), if_neg (by simp [helse])]

/-- The statements up to a brace begin with no dot. -/
theorem body_head {found : Found} {ts : List Token} {x : (List Stmt × Found) × List Token}
    (h : outcome (body s found ts) = .ok x) : ∃ t more, ts = t :: more ∧ t.kind ≠ .dot := by
  rw [outcome_body] at h
  cases ts with
  | nil => cases h
  | cons t more =>
    refine ⟨t, more, rfl, fun hdot => ?_⟩
    have hskip : skipSemicolons (t :: more) = t :: more :=
      List.dropWhile_cons_of_neg (by simp [hdot])
    rw [hskip, bodyAt, if_neg (by simp [hdot]), if_neg (by simp [hdot])] at h
    obtain ⟨st, hst, -⟩ := exists_of_bind h
    exact Token.ne_of_goesOn (goesOn_eq_false_of_statement hst) (by simp) hdot

theorem bind_before {found found' : Found} (h : AlikeFound found found') (s : Scope) (b : Behind) :
    ({ s.before b with vars := found'.vars } : Scope) =
      Scope.before { s with vars := found.vars } b := by
  rw [h.1]
  rfl

/-- A block starts with a brace. -/
theorem block_head {found : Found} {ts : List Token} {x : (List Stmt × Found) × List Token}
    (h : outcome (block s found ts) = .ok x) : ∃ t more, ts = t :: more ∧ t.kind = .lbrace := by
  rw [outcome_block] at h
  obtain ⟨brace, hbrace, -⟩ := exists_of_bind h
  exact expect_head hbrace

mutual

/-- A statement reads on the same whatever stands behind it. -/
theorem extends_statement (s : Scope) (hs : s.AtEnd) {found found' : Found}
    (hfound : AlikeFound found found') {t t' : Token} (ht : t.Alike t') {rest rest' : List Token}
    (h : rest.Forall₂ Token.Alike rest') :
    ExtendsStatement b (outcome (statement s found (t :: rest)))
      (outcome (statement (s.before b) found' (t' :: (rest' ++ b.tokens)))) := by
  have hcons : (t :: rest).length = rest.length + 1 := rfl
  have hinner : Scope.AtEnd { s with vars := found.vars } := hs
  rw [outcome_statement, outcome_statement]
  dsimp only
  simp only [bind_before hfound, ht.isWord]
  -- One case for each word that begins a statement, in the order in which they are tried.
  refine .ite (extends_letBinding hinner hfound t.pos t'.pos h) ?_
  refine .ite ?_ ?_
  · refine .of_extends (.bind (extends_branches _ hinner hfound t.pos t'.pos rfl t.pos t'.pos h)
      fun z z' more more' _ hz hmore => ?_)
    exact .ok (.single hz.1 hz.2) hmore
  refine .ite (.of_extends (extends_loopAt _ hinner hfound t.pos t'.pos h)) ?_
  refine .ite ?_ ?_
  · have hloop : (s.before b).inLoop = s.inLoop := rfl
    rw [hloop]
    refine .ite (.of_extends (.ok (.single ?_ hfound) h)) (.of_extends .error)
    split <;> rfl
  refine .ite (.of_extends (.ok (.single rfl hfound) h)) ?_
  refine .ite ?_ ?_
  · refine .of_extends
      (.bind (extends_renderTarget hfound t.pos t'.pos h) fun x x' more more' _ hx hmore => ?_)
    exact .ok ⟨rfl, hfound.1, congrArg some hx⟩ hmore
  refine .ite (.of_extends (extends_namespaceAt _ hinner hfound h)) ?_
  exact .ite (.of_extends .error) (extends_chainStatement hinner hfound (.cons ht h))
termination_by (rest.length + 1, 2)
decreasing_by all_goals exact sooner (by omega)

/-- A loop reads on the same whatever stands behind it. -/
theorem extends_loopAt (s : Scope) (hs : s.AtEnd) {found found' : Found}
    (hfound : AlikeFound found found') (pos pos' : Pos) {ts ts' : List Token}
    (h : ts.Forall₂ Token.Alike ts') :
    Extends b AlikeBlock (loopAt s found pos ts)
      (loopAt (s.before b) found' pos' (ts' ++ b.tokens)) := by
  have hround : Scope.AtEnd { s with inLoop := true } := hs
  unfold loopAt
  by_cases hbrace : (s.peek ts).kind = .lbrace
  · have hbrace' : ((s.before b).peek (ts' ++ b.tokens)).kind = .lbrace := by
      obtain ⟨rfl, -⟩ | hpeek := peek_kind (b := b) s h
      · exact absurd hbrace (hs.peek_ne .lbrace (by simp))
      · exact hpeek.trans hbrace
    rw [if_pos hbrace, if_pos hbrace']
    refine .bind (extends_block _ hround hfound h) fun x x' more more' _ hx hmore => ?_
    exact .ok (.single (alikeStmt_repeated rfl hx.1 pos pos') hx.2) hmore
  · rw [if_neg hbrace]
    intro z more hread
    have hnil : ts ≠ [] := by
      rintro rfl
      obtain ⟨x, hx, -⟩ := exists_of_bind hread
      exact absurd (outcome_lt hx) (Nat.not_lt_zero _)
    have hbrace' : ((s.before b).peek (ts' ++ b.tokens)).kind ≠ .lbrace := by
      obtain ⟨hts, -⟩ | hpeek := peek_kind (b := b) s h
      · exact absurd hts hnil
      · exact hpeek ▸ hbrace
    rw [if_neg hbrace']
    refine ExtendsInside.bind (extends_expr s hs h).inside (fun e rest x hx => ?_)
      (fun e e' rest rest' he hlike hrest => ?_)
      z more hread
    · obtain ⟨y, hy, -⟩ := exists_of_bind hx
      obtain ⟨u, others, rfl, hu⟩ := block_head hy
      exact ⟨u, others, rfl, by simp [hu]⟩
    · have hlt := outcome_lt he
      refine .bind (extends_block _ hround hfound hrest) fun x x' more more' _ hx hmore => ?_
      have hcount : (some e').map Expr.unplaced = (some e).map Expr.unplaced := congrArg some hlike
      exact .ok (.single (alikeStmt_repeated hcount hx.1 pos pos') hx.2) hmore
termination_by (ts.length, 2)
decreasing_by all_goals exact sooner (by omega)

/-- A namespace line reads on the same whatever stands behind it. -/
theorem extends_namespaceAt (s : Scope) (hs : s.AtEnd) {found found' : Found}
    (hfound : AlikeFound found found') {ts ts' : List Token} (h : ts.Forall₂ Token.Alike ts') :
    Extends b AlikeBlock (namespaceAt s found ts)
      (namespaceAt (s.before b) found' (ts' ++ b.tokens)) := by
  unfold namespaceAt
  refine .bind (extends_expect s .identifier h) fun name name' rest rest' hname hnamelike hrest =>
    ?_
  have hltn : rest.length < ts.length := outcome_lt hname
  refine .bind (extends_expect s .lbrace hrest) fun brace brace' more more' hbrace _ hmore => ?_
  have hltb : more.length < rest.length := outcome_lt hbrace
  refine .enter hs fun inner hinner => ?_
  rw [hnamelike.word]
  exact extends_body { inner with block := some name.word } hinner hfound hmore
termination_by (ts.length, 1)
decreasing_by all_goals exact sooner (by omega)

/-- The arms of a choice read on the same whatever stands behind them. -/
theorem extends_branches (s : Scope) (hs : s.AtEnd) {found found' : Found}
    (hfound : AlikeFound found found') (start start' : Pos) {arms arms' : List Branch}
    (harms : AlikeArms arms arms') (pos pos' : Pos) {ts ts' : List Token}
    (h : ts.Forall₂ Token.Alike ts') :
    Extends b AlikeChoice (outcome (branches s found start arms ts pos))
      (outcome (branches (s.before b) found' start' arms' (ts' ++ b.tokens) pos')) := by
  have hinner : Scope.AtEnd { s with vars := found.vars } := hs
  rw [outcome_branches, outcome_branches, bind_before hfound]
  refine (extends_expr _ hinner h).inside.bind (fun e rest x hx => ?_)
    fun e e' rest rest' hread he hrest => ?_
  · obtain ⟨y, hy, -⟩ := exists_of_bind hx
    obtain ⟨u, others, rfl, hu⟩ := block_head hy
    exact ⟨u, others, rfl, by simp [hu]⟩
  have hlt : rest.length < ts.length := outcome_lt hread
  refine .bind (extends_block _ hinner hfound hrest) fun x x' more more' hblock hx hmore => ?_
  have hltb : more.length < rest.length := outcome_lt hblock
  have harms := harms.append he hx.1 pos pos'
  dsimp only
  match more, more', hmore with
  | _, _, .nil =>
    rw [List.nil_append, furtherArms_behind]
    exact .ok ⟨harms.choose start start', hx.2⟩ .nil
  | t :: more, t' :: more', .cons ht hmore =>
    have hcons : (t :: more).length = more.length + 1 := rfl
    rw [List.cons_append, furtherArms, furtherArms, ht.isWord, ht.isWord]
    split
    · exact extends_branches _ hinner hx.2 start start' harms t.pos t'.pos hmore
    split
    · refine .bind (extends_block _ hinner hx.2 hmore) fun y y' others others' _ hy hothers => ?_
      exact .ok ⟨harms.otherwise hy.1 start start', hy.2⟩ hothers
    · exact .ok ⟨harms.choose start start', hx.2⟩ (.cons ht hmore)
termination_by (ts.length, 1)
decreasing_by all_goals exact sooner (by omega)

/-- A block reads on the same whatever stands behind it. -/
theorem extends_block (s : Scope) (hs : s.AtEnd) {found found' : Found}
    (hfound : AlikeFound found found') {ts ts' : List Token} (h : ts.Forall₂ Token.Alike ts') :
    Extends b AlikeBlock (outcome (block s found ts))
      (outcome (block (s.before b) found' (ts' ++ b.tokens))) := by
  rw [outcome_block, outcome_block]
  refine .bind (extends_expect s .lbrace h) fun brace brace' more more' hbrace _ hmore => ?_
  have hlt : more.length < ts.length := outcome_lt hbrace
  refine .enter hs fun inner hinner => ?_
  exact extends_body { inner with nested := true } hinner hfound hmore
termination_by (ts.length, 1)
decreasing_by all_goals exact sooner (by omega)

/-- The statements of a block read on the same whatever stands behind them. -/
theorem extends_body (s : Scope) (hs : s.AtEnd) {found found' : Found}
    (hfound : AlikeFound found found') {ts ts' : List Token} (h : ts.Forall₂ Token.Alike ts') :
    Extends b AlikeBlock (outcome (body s found ts))
      (outcome (body (s.before b) found' (ts' ++ b.tokens))) := by
  rw [outcome_body, outcome_body]
  have hlength := length_skipSemicolons ts
  obtain ⟨hnil, -⟩ | ⟨t, more, t', more', hskip, hskip', ht, hmore⟩ :=
    skipSemicolons_alike h b.tokens
  · rw [hnil]
    exact .error
  · have hsize : more.length + 1 ≤ ts.length := by
      rw [hskip] at hlength
      exact hlength
    rw [hskip, hskip', List.cons_append, bodyAt, bodyAt, ht.kind]
    split
    · exact .ok ⟨rfl, hfound⟩ hmore
    split
    · exact .error
    · intro z others hread
      obtain ⟨⟨x, rest⟩, hx, hread⟩ := exists_of_bind hread
      obtain ⟨⟨y, others'⟩, hy, hread⟩ := exists_of_bind hread
      obtain ⟨rfl, rfl⟩ := Prod.mk.inj (Except.ok.inj hread)
      obtain ⟨u, us, rfl, hu⟩ := body_head hy
      have hlt : (u :: us).length < more.length + 1 := outcome_lt hx
      obtain ⟨x', rest', hx', hlike, hrest⟩ | ⟨hnil, -⟩ :=
        extends_statement s hs hfound ht hmore x (u :: us) hx (by simpa using hu)
      · obtain ⟨y', others'', hy', hylike, hothers⟩ := extends_body s hs hlike.2 hrest y others' hy
        refine ⟨_, others'', ?_, hlike.append hylike, hothers⟩
        rw [hx']
        dsimp only [Bind.bind, Except.bind]
        rw [hy']
      · cases hnil
termination_by (ts.length, 3)
decreasing_by all_goals exact sooner (by omega)

end

/-! ## programs with more behind -/

theorem statements_skip {found : Found} {ts ts' : List Token}
    (h : skipSemicolons ts = skipSemicolons ts') :
    statements s found ts = statements s found ts' := by rw [statements_eq, h, ← statements_eq]

/-- No program starts with a dot. -/
theorem statements_head {found : Found} {ts : List Token} {x : List Stmt × Found}
    (h : statements s found ts = .ok x) :
    ∀ t ∈ ts.head?, t.kind ≠ .dot := by
  cases ts with
  | nil => nofun
  | cons t more =>
    rintro _ ⟨⟩ hdot
    have hskip : skipSemicolons (t :: more) = t :: more :=
      List.dropWhile_cons_of_neg (by simp [hdot])
    rw [statements_eq, hskip, statementsAt, if_neg (by simp [hdot])] at h
    obtain ⟨st, hst, -⟩ := exists_of_bind h
    exact Token.ne_of_goesOn (goesOn_eq_false_of_statement hst) (by simp) hdot

/-- A run of statements is read, and then what is behind; unless it binds a name last that becomes a
call. -/
theorem extends_statements (b : Behind) (s : Scope) (hs : s.AtEnd) {found found' : Found}
    (hfound : AlikeFound found found')
    {ts ts' : List Token} (h : ts.Forall₂ Token.Alike ts')
    {x : List Stmt × Found} (hx : statements s found ts = .ok x) :
    (∃ x', AlikeBlock x x' ∧ statements (s.before b) found' (ts' ++ b.tokens) =
        statements (s.before b) x'.2 b.tokens >>= fun more => .ok (x'.1 ++ more.1, more.2)) ∨
      b.next.kind = .lparen ∧ ∀ y, statements (s.before b) found' (ts' ++ b.tokens) = .ok y →
        ¬ x.1.map Stmt.unplaced <+: y.1.map Stmt.unplaced := by
  have hlength := length_skipSemicolons ts
  rw [statements_eq] at hx
  obtain ⟨hnil, hskip'⟩ | ⟨t, more, t', more', hskip, hskip', ht, hmore⟩ :=
    skipSemicolons_alike h b.tokens
  · rw [hnil] at hx
    obtain rfl := Except.ok.inj hx
    refine .inl ⟨([], found'), ⟨rfl, hfound⟩, ?_⟩
    rw [statements_skip hskip']
    cases statements (s.before b) found' b.tokens <;> rfl
  · have hsize : more.length + 1 ≤ ts.length := by
      rw [hskip] at hlength
      exact hlength
    rw [hskip, statementsAt, if_neg ht.inside] at hx
    obtain ⟨⟨st, rest⟩, hst, hx⟩ := exists_of_bind hx
    obtain ⟨others, hothers, hx⟩ := exists_of_bind hx
    obtain rfl := Except.ok.inj hx
    have hread : statements (s.before b) found' (ts' ++ b.tokens) =
        outcome (statement (s.before b) found' (t' :: (more' ++ b.tokens))) >>= fun st =>
          statements (s.before b) st.1.2 st.2 >>= fun more => .ok (st.1.1 ++ more.1, more.2) := by
      rw [statements_eq, hskip', List.cons_append, statementsAt, if_neg (ht.kind ▸ ht.inside)]
    have hlt : rest.length < more.length + 1 := outcome_lt hst
    obtain ⟨st', rest', hst', hlike, hrest'⟩ | ⟨rfl, hparen, one, hone, hother⟩ :=
      extends_statement (b := b) s hs hfound ht hmore st rest hst (statements_head hothers)
    · rw [hread, hst']
      obtain ⟨others', hothers', heq⟩ | ⟨hparen, hother⟩ :=
        extends_statements b s hs hlike.2 hrest' hothers
      · refine .inl ⟨_, hlike.append hothers', ?_⟩
        dsimp only [Bind.bind, Except.bind] at heq ⊢
        rw [heq]
        cases statements (s.before b) others'.2 b.tokens <;> simp
      · refine .inr ⟨hparen, fun y hy hprefix => ?_⟩
        change (statements _ _ _ >>= _) = _ at hy
        obtain ⟨z, hz, hy⟩ := exists_of_bind hy
        obtain rfl := Except.ok.inj hy
        rw [List.map_append, List.map_append, hlike.1, List.prefix_append_right_inj] at hprefix
        exact hother z hz hprefix
    · refine .inr ⟨hparen, fun y hy hprefix => ?_⟩
      rw [hread] at hy
      obtain ⟨z, hz, hy⟩ := exists_of_bind hy
      obtain ⟨w, -, hy⟩ := exists_of_bind hy
      obtain rfl := Except.ok.inj hy
      obtain ⟨one', hone', hne⟩ := hother z hz
      rw [hone, hone', List.singleton_append, List.singleton_append, List.map_cons, List.map_cons,
        List.cons_prefix_cons] at hprefix
      exact hne hprefix.1.symm
termination_by ts.length

/-- The search order reads on the same whatever stands behind it. -/
theorem extends_searchNames (s : Scope) (names : List String) {ts ts' : List Token}
    (h : ts.Forall₂ Token.Alike ts') :
    Extends b Eq (outcome (searchNames s names ts))
      (outcome (searchNames (s.before b) names (ts' ++ b.tokens))) := by
  rw [outcome_searchNames, outcome_searchNames]
  refine .bind (extends_expect s .identifier h) fun t t' rest rest' hread ht hrest => ?_
  have hlt : rest.length < ts.length := outcome_lt hread
  dsimp only
  rw [ht.word]
  match rest, rest', hrest with
  | _, _, .nil =>
    have hstop : ∀ names, furtherNames (s.before b) names b.tokens = .ok (names, b.tokens) := by
      intro names
      cases hb : b.tokens with
      | nil => rfl
      | cons c more => exact if_neg (b.head_ne .comma (by simp) c (by rw [hb]; rfl))
    rw [List.nil_append, hstop]
    exact .ok rfl .nil
  | c :: more, c' :: more', .cons hc hmore =>
    have hcons : (c :: more).length = more.length + 1 := rfl
    rw [List.cons_append, furtherNames, furtherNames, hc.kind]
    split
    · exact extends_searchNames s _ hmore
    · exact .ok rfl (.cons hc hmore)
termination_by ts.length

/-- The header reads on the same whatever stands behind it. -/
theorem extends_header (b : Behind) {s : Scope} (hs : s.AtEnd) {ts ts' : List Token}
    (h : ts.Forall₂ Token.Alike ts') :
    Extends b Eq (header s ts) (header (s.before b) (ts' ++ b.tokens)) := by
  cases h with
  | nil => exact .error
  | @cons t t' rest rest' ht hrest =>
    by_cases hsearch : t.isWord "search" = true
    · rw [header_search s hsearch, List.cons_append, header_search _ (ht.isWord "search" ▸ hsearch)]
      exact extends_searchNames s [] hrest
    · rw [Bool.not_eq_true] at hsearch
      rw [header_namespace s hsearch, List.cons_append,
        header_namespace _ (ht.isWord "search" ▸ hsearch), ht.isWord]
      cases hrest with
      | nil =>
        rw [if_neg (by simp [hs.peek_ne .identifier])]
        exact .error
      | @cons n n' more more' hn hmore =>
        have hkind : ((s.before b).peek (n' :: more' ++ b.tokens)).kind =
          (s.peek (n :: more)).kind := hn.kind
        have hword : ((s.before b).peek (n' :: more' ++ b.tokens)).word =
          (s.peek (n :: more)).word := hn.word
        rw [hkind, hword]
        split
        · exact .ok rfl (.cons ht (.cons hn hmore))
        · exact .error

/-- Some statements, with others behind in the place of one another. -/
theorem extends_program (b : Behind) {s : Scope} (hs : s.AtEnd) {ts ts' : List Token}
    (h : ts.Forall₂ Token.Alike ts') {names : List String} {rest : List Token}
    (hheader : header s (skipSemicolons ts) = .ok (names, rest)) :
    ∃ rest', header (s.before b) (skipSemicolons (ts' ++ b.tokens)) =
      .ok (names, rest' ++ b.tokens) ∧
      rest.Forall₂ Token.Alike rest' := by
  obtain ⟨hnil, -⟩ | ⟨t, more, t', more', hskip, hskip', ht, hmore⟩ :=
    skipSemicolons_alike h b.tokens
  · rw [hnil] at hheader
    cases hheader
  · rw [hskip] at hheader
    obtain ⟨names', rest', hread, rfl, hrest⟩ :=
      extends_header b hs (.cons ht hmore) names rest hheader
    exact ⟨rest', by rw [hskip', hread], hrest⟩

theorem AlikeBlock.trans {x y z : List Stmt × Found} (h : AlikeBlock x y) (h' : AlikeBlock x z) :
    AlikeBlock y z :=
  ⟨h'.1.trans h.1.symm, h'.2.1.trans h.2.1.symm, h'.2.2.trans h.2.2.symm⟩

/-- The program of a header and of what is read behind it. -/
def programOf (names : List String) (x : List Stmt × Found) : Program :=
  { search := names, statements := x.1, vars := x.2.vars, render := x.2.render }

/-- Programs of alike blocks are the same up to places. -/
theorem AlikeBlock.unplaced {x y : List Stmt × Found} (h : AlikeBlock x y) (names : List String) :
    (programOf names y).unplaced = (programOf names x).unplaced := by
  have hrender : ∀ r : Option (Surface × Pos),
      (r.map fun z => (z.1, ({} : Pos))) = (r.map Prod.fst).map fun z => (z, {}) :=
    fun r => by rw [Option.map_map]; rfl
  obtain ⟨hsts, hvars, htarget⟩ := h
  simp only [programOf, Program.unplaced, hsts, hvars, hrender, htarget]

/-- Reading the tokens of a program, the last of them its end. -/
theorem ofTokens_concat (options : Options) (ts : List Token) {last : Token}
    (hlast : last.kind = .endOfInput) :
    Program.ofTokens options (ts ++ [last]) =
      header { last, maxDepth := options.maxDepth } (skipSemicolons ts) >>= fun h =>
        statements { last, maxDepth := options.maxDepth, search := h.1 } {} h.2 >>= fun x =>
          .ok (programOf h.1 x) := by
  have hsplit : splitLast (ts ++ [last]) = (ts, last) := by
    unfold splitLast
    rw [List.getLast?_concat]
    simp [hlast]
  unfold Program.ofTokens
  rw [hsplit]
  rfl

end Parser

open EffectChain.Parser in
/-- A semicolon between the tokens of a program and those of statements that come behind them. -/
theorem Program.ofTokens_semicolon {options : Options} {ts us us' : List Token}
    {last last' last'' semicolon : Token} {p q : Program} (hts : ts.Forall₂ Token.Alike ts)
    (hus : us.Forall₂ Token.Alike us') (hlast : last.IsLast) (hlast' : last'.IsLast)
    (hlast'' : last''.IsLast) (hsemicolon : semicolon.kind = .semicolon)
    (hp : ofTokens options (ts ++ [last]) = .ok p)
    (hq : ofTokens options (ts ++ us ++ [last']) = .ok q)
    (hmore : p.statements.map Stmt.unplaced <+: q.statements.map Stmt.unplaced)
    (hnew : (us.headD last').goesOn = false) :
    ∃ r, ofTokens options (ts ++ semicolon :: us' ++ [last'']) = .ok r ∧
    r.unplaced = q.unplaced := by
  have hstop : semicolon.goesOn = false := by simp [Token.goesOn, Token.isWord, hsemicolon]
  have hfinal : last''.goesOn = false := by simp [Token.goesOn, Token.isWord, hlast''.1]
  let joined : Behind := ⟨us, last', hnew⟩
  let parted : Behind := ⟨semicolon :: us', last'', hstop⟩
  let ended : Behind := ⟨[], last'', hfinal⟩
  have hempty : AlikeFound {} {} := ⟨rfl, rfl⟩
  rw [ofTokens_concat options ts hlast.1] at hp
  rw [ofTokens_concat options (ts ++ us) hlast'.1] at hq
  rw [ofTokens_concat options (ts ++ semicolon :: us') hlast''.1]
  obtain ⟨⟨names, rest⟩, hheader, hp⟩ := exists_of_bind hp
  obtain ⟨x, hx, hp⟩ := exists_of_bind hp
  obtain rfl := Except.ok.inj hp
  have hs : Scope.AtEnd { last, maxDepth := options.maxDepth } := hlast
  have hs' : Scope.AtEnd { last, maxDepth := options.maxDepth, search := names } := hlast
  -- with the statements behind
  obtain ⟨rest₁, hheader₁, hrest₁⟩ := extends_program joined hs hts hheader
  obtain ⟨h, hh, hq⟩ := exists_of_bind hq
  obtain rfl := Except.ok.inj (hheader₁.symm.trans hh)
  obtain ⟨y, hy, hq⟩ := exists_of_bind hq
  obtain rfl := Except.ok.inj hq
  obtain ⟨x₁, hx₁, hread₁⟩ | ⟨-, hother⟩ := extends_statements joined _ hs' hempty hrest₁ hx
  swap
  · exact absurd hmore (hother y hy)
  obtain ⟨z, hz, hyz⟩ := exists_of_bind (hread₁.symm.trans hy)
  obtain rfl := Except.ok.inj hyz
  -- with a semicolon and the statements behind
  obtain ⟨rest₂, hheader₂, hrest₂⟩ := extends_program parted hs hts hheader
  obtain ⟨x₂, hx₂, hread₂⟩ | ⟨hparen, -⟩ := extends_statements parted _ hs' hempty hrest₂ hx
  swap
  · exact absurd (hsemicolon.symm.trans hparen) (by decide)
  have hlater : Scope.AtEnd
    (Scope.before { last, maxDepth := options.maxDepth, search := names } joined) := hlast'
  obtain ⟨z', hz', hread₃⟩ | ⟨hparen, -⟩ :=
    extends_statements ended _ hlater (hx₁.trans hx₂).2 hus hz
  swap
  · exact absurd (hlast''.1.symm.trans hparen) (by decide)
  have hskip : skipSemicolons (semicolon :: us') = skipSemicolons us' :=
    List.dropWhile_cons_of_pos (by simpa using hsemicolon)
  have hended : Parser.statements
      (Scope.before { last, maxDepth := options.maxDepth, search := names } parted) x₂.2
      (semicolon :: us') = .ok (z'.1 ++ [], z'.2) := by
    rw [statements_skip hskip]
    rw [List.append_nil] at hread₃
    refine hread₃.trans ?_
    rw [statements_eq]
    rfl
  refine ⟨programOf names (x₂.1 ++ (z'.1 ++ []), z'.2), ?_, ?_⟩
  · have hread : Parser.statements
        (Scope.before { last, maxDepth := options.maxDepth, search := names } parted) {}
        (rest₂ ++ parted.tokens) = .ok (x₂.1 ++ (z'.1 ++ []), z'.2) :=
      hread₂.trans (congrArg (· >>= fun more => Except.ok (x₂.1 ++ more.1, more.2)) hended)
    change header (Scope.before { last, maxDepth := options.maxDepth } parted)
      (skipSemicolons (ts ++ parted.tokens)) >>= _ = _
    rw [hheader₂]
    exact congrArg (· >>= fun x => Except.ok (programOf names x)) hread
  · have halike : AlikeBlock (x₁.1 ++ z.1, z.2) (x₂.1 ++ z'.1, z'.2) := (hx₁.trans hx₂).append hz'
    rw [List.append_nil]
    exact halike.unplaced names

/-! ## semicolons and newlines -/

/-- The text starts a statement of its own: its first token does not go on with what is before it.
-/
def Token.StartsAnew (source : Bytes) : Prop :=
  ∀ ts, scan source = .ok ts → ∀ t ∈ ts.head?, t.goesOn = false

namespace Program

variable {options : Options}

/-- A source is a program when its bytes are scanned and its tokens read. -/
theorem parse_eq_ok {source : Bytes} {p : Program} :
    parse options source = .ok p ↔ ∃ ts, Token.scan source = .ok ts ∧
    ofTokens options ts = .ok p := by
  refine ⟨fun h => ?_, fun ⟨ts, hts, hp⟩ => ?_⟩
  · unfold parse at h
    split at h
    · rename_i q hq
      obtain rfl := Except.ok.inj h
      exact exists_of_bind hq
    · cases h
  · rw [parse_of_scan hts, hp]
    rfl

end Program

/-- A semicolon separates statements like a newline: a program and the statements that continue
it on the next line are the same program, up to places, with a semicolon between them. -/
theorem semicolon_as_newline {options : Options} {first second : Bytes} {p q : Program}
    (hp : Program.parse options first = .ok p)
    (hq : Program.parse options (first ++ Bytes.ofString "\n" ++ second) = .ok q)
    (hmore : p.statements.map Stmt.unplaced <+: q.statements.map Stmt.unplaced)
    (hnew : Token.StartsAnew second) (hopen : Lexer.endsOpen first = false) :
    ∃ r, Program.parse options (first ++ Bytes.ofString ";" ++ second) = .ok r ∧
    r.unplaced = q.unplaced := by
  have hnewline : first ++ Bytes.ofString "\n" ++ second = first ++ 10 :: second :=
    List.append_assoc ..
  have hsemicolon : first ++ Bytes.ofString ";" ++ second = first ++ 59 :: second :=
    List.append_assoc ..
  rw [hnewline, Program.parse_eq_ok] at hq
  simp only [hsemicolon, Program.parse_eq_ok] at hp ⊢
  obtain ⟨ts, hts, hp⟩ := hp
  obtain ⟨qs, hqs, hq⟩ := hq
  -- the text before the separator has the same tokens with either behind it
  obtain ⟨init, last, rfl, hlast, hinside, hplain⟩ :=
    Lexer.tokensFrom_separated (.inl rfl) second hts hopen
  obtain ⟨init', same, heq, -, -, hsplit⟩ := Lexer.tokensFrom_separated (.inr rfl) second hts hopen
  obtain ⟨rfl, hsame⟩ := List.append_inj' heq rfl
  obtain rfl := List.singleton_inj.1 hsame
  -- and so has the text behind it, but for places
  rw [Lexer.tokensFrom_newline] at hplain
  obtain ⟨us, hus, rfl⟩ := exists_of_map (hplain.symm.trans hqs)
  obtain ⟨more, last', more', last'', rfl, hread, halike, hlast', hlast''⟩ :=
    Lexer.tokensFrom_elsewhere hus (last.pos.past [59])
  obtain ⟨own, ownLast, own', ownLast', hown, hscan, hsame, -, hlast₀⟩ :=
    Lexer.tokensFrom_elsewhere hus .start
  obtain ⟨rfl, hends⟩ := List.append_inj' hown rfl
  have hhead : (more.headD last').goesOn = false := by
    have hfirst := hnew _ hscan
    cases hsame with
    | nil => simp [Token.goesOn, Token.isWord, hlast'.1]
    | @cons t t' _ _ ht _ =>
      have ht' := hfirst t' rfl
      simpa [Token.goesOn, ht.kind, ht.isWord] using ht'
  have hkind : (⟨.semicolon, [59], last.pos⟩ : Token).kind = .semicolon := rfl
  obtain ⟨r, hr, hsame⟩ :=
    Program.ofTokens_semicolon (Token.Alike.refl_of_forall hinside) halike hlast hlast'
    hlast'' hkind hp (by rwa [List.append_assoc]) hmore hhead
  refine ⟨r, ⟨_, ?_, hr⟩, hsame⟩
  refine hsplit.trans ?_
  rw [Lexer.tokensFrom_semicolon, hread, List.append_assoc]
  rfl

/-! ## a name and a closure -/

/-- A text that is bound to a name, and the chain on the next line that begins with the name. -/
structure Quill where
  first : Bytes
  value : Expr

namespace Quill

/-- The name of an effect. -/
def ink : Quill := ⟨.ofString "search s let x = ink", .ident "ink" ⟨1, 18⟩⟩

def closure : Quill := ⟨.ofString "search s let x = () => time", .closure "time" ⟨1, 18⟩⟩

def second : Bytes := .ofString "x().out(o0)"

def program (q : Quill) : Program where
  search := ["s"]
  statements := [.bind "x" q.value ⟨1, 10⟩]
  vars := ["x"]

def chain : Stmt :=
  let call : Call := { name := "x", ns := { resolved := true, search := ["s"] }, pos := ⟨2, 1⟩ }
  .run { calls := [call], out := some (.surface ⟨.output, 0⟩ ⟨2, 9⟩), pos := ⟨2, 1⟩ } ⟨2, 1⟩

def continued (q : Quill) : Program :=
  { q.program with statements := q.program.statements ++ [chain] }

/-- The closure takes the text behind the semicolon. -/
def swallowed : Quill :=
  ⟨.ofString "search s let x = () => time;x().out(o0)", .closure "time;x().out(o0)" ⟨1, 18⟩⟩

def head : List Token :=
  [⟨.keyword, .ofString "search", ⟨1, 1⟩⟩, ⟨.identifier, .ofString "s", ⟨1, 8⟩⟩,
    ⟨.keyword, .ofString "let", ⟨1, 10⟩⟩, ⟨.identifier, .ofString "x", ⟨1, 14⟩⟩,
      ⟨.assign, .ofString "=", ⟨1, 16⟩⟩]

def tail (line : Nat) : List Token :=
  [⟨.identifier, .ofString "x", ⟨line, 1⟩⟩, ⟨.lparen, .ofString "(", ⟨line, 2⟩⟩,
    ⟨.rparen, .ofString ")", ⟨line, 3⟩⟩, ⟨.dot, .ofString ".", ⟨line, 4⟩⟩,
    ⟨.identifier, .ofString "out", ⟨line, 5⟩⟩, ⟨.lparen, .ofString "(", ⟨line, 8⟩⟩,
      ⟨.surface, .ofString "o0", ⟨line, 9⟩⟩, ⟨.rparen, .ofString ")", ⟨line, 11⟩⟩,
        ⟨.endOfInput, [], ⟨line, 12⟩⟩]

theorem parse_ink : Program.parse {} ink.first = .ok ink.program := by
  refine Program.parse_eq_ok.2
    ⟨head ++ [⟨.identifier, .ofString "ink", ⟨1, 18⟩⟩, ⟨.endOfInput, [], ⟨1, 21⟩⟩], ?_, ?_⟩
  · rw [show ink.first = _ from Bytes.ofString_ofList _]
    decide +kernel
  · cbv

theorem parse_ink_continued :
    Program.parse {} (ink.first ++ Bytes.ofString "\n" ++ second) = .ok ink.continued := by
  refine Program.parse_eq_ok.2 ⟨head ++ ⟨.identifier, .ofString "ink", ⟨1, 18⟩⟩ :: tail 2, ?_, ?_⟩
  · rw [show ink.first = _ from Bytes.ofString_ofList _,
      show second = _ from Bytes.ofString_ofList _]
    decide +kernel
  · cbv

theorem startsAnew_second : Token.StartsAnew second := by
  have hscan : Token.scan second = .ok (tail 1) := by decide +kernel
  intro ts hts
  obtain rfl := Except.ok.inj (hscan.symm.trans hts)
  decide +kernel

end Quill

open Quill in
/-- A semicolon does separate the two, for nothing is open in the first. -/
theorem quill_separated : Lexer.endsOpen ink.first = false ∧
    ∃ r, Program.parse {} (ink.first ++ Bytes.ofString ";" ++ second) = .ok r ∧
      r.unplaced = ink.continued.unplaced := by
  have hopen : Lexer.endsOpen ink.first = false := by decide +kernel
  exact ⟨hopen, semicolon_as_newline parse_ink parse_ink_continued (List.prefix_append _ _)
    startsAnew_second hopen⟩

open Quill in
/-- The body of a closure goes on behind a semicolon: the chain on the next line is a statement, and
with a semicolon before it a part of the closure. -/
theorem quill_swallowed : (∀ b ∈ closure.first ++ second, b ∉ Bytes.ofString "#/") ∧
    Program.parse {} closure.first = .ok closure.program ∧
    Program.parse {} (closure.first ++ Bytes.ofString "\n" ++ second) = .ok closure.continued ∧
    closure.continued.statements = closure.program.statements ++ [chain] ∧ Token.StartsAnew second ∧
    Program.parse {} (closure.first ++ Bytes.ofString ";" ++ second) = .ok swallowed.program ∧
    swallowed.program.unplaced ≠ closure.continued.unplaced := by
  have hfirst : closure.first = _ := Bytes.ofString_ofList _
  have hsecond : second = _ := Bytes.ofString_ofList _
  refine ⟨?_, ?_, ?_, rfl, startsAnew_second, ?_, fun hsame => ?_⟩
  · have hnone : (closure.first ++ second).all (!(Bytes.ofString "#/").contains ·) = true := by
      rw [hfirst, hsecond, Bytes.ofString_ofList]
      decide +kernel
    intro b hb hmem
    simpa [hmem] using List.all_eq_true.1 hnone b hb
  · refine Program.parse_eq_ok.2
      ⟨head ++ [⟨.closure, .ofString "time", ⟨1, 18⟩⟩, ⟨.endOfInput, [], ⟨1, 28⟩⟩], ?_, ?_⟩
    · rw [hfirst]
      decide +kernel
    · cbv
  · refine Program.parse_eq_ok.2 ⟨head ++ ⟨.closure, .ofString "time", ⟨1, 18⟩⟩ :: tail 2, ?_, ?_⟩
    · rw [hfirst, hsecond]
      decide +kernel
    · cbv
  · refine Program.parse_eq_ok.2
      ⟨head ++ [⟨.closure, .ofString "time;x().out(o0)", ⟨1, 18⟩⟩, ⟨.endOfInput, [], ⟨1, 40⟩⟩], ?_,
        ?_⟩
    · rw [hfirst, hsecond]
      decide +kernel
    · cbv
  · exact absurd (congrArg (fun p => p.statements.length) hsame) (by decide)

end EffectChain
