import EffectChain.Proofs.Program.Phrases

/-!
# EffectChain.Proofs.Program.Blocks

Statements that are read wherever they stand.

The tokens of a phrase may be statements one after another (`Parser.IsBlock`): what is read before
them and behind them does not matter.  A condition or a loop around such statements is a statement
again (`Parser.IsStmt.choose`, `Parser.IsStmt.repeated`), and statements behind a search directive
are a program (`Program.exists_of_block`).
-/

namespace EffectChain

namespace Parser

open Scope Lexer

variable {search : List String} {s : Scope}

/-- No brace begins an expression. -/
theorem Denotes.peek_ne {E : Expr → Prop} {ts : List Token} (h : Denotes search E ts) (s : Scope)
    (hs : s.Open search) {brace : Token} (hbrace : brace.kind = .lbrace) {rest : List Token} :
    (s.peek (ts ++ brace :: rest)).kind ≠ .lbrace := by
  intro hpeek
  obtain ⟨t, more, hts, hkind⟩ : ∃ t more, ts ++ brace :: rest = t :: more ∧ t.kind = .lbrace := by
    cases ts with
    | nil => exact ⟨_, _, rfl, hbrace⟩
    | cons t ts => exact ⟨_, _, rfl, hpeek⟩
  have hunary : ∀ s : Scope, outcome (unary s (t :: more)) = unexpected t "expression" := by
    intro s
    rw [unary_primary (by simp [hkind]), outcome_primary, hkind]
  have herror : outcome (expr { s with depth := 0, maxDepth := 1 } (t :: more)) =
      unexpected t "expression" := by
    rw [outcome_expr, enter_of_le (Nat.le_refl 1)]
    change outcome (additive _ _) = _
    rw [outcome_additive, outcome_multiplicative, hunary]
    rfl
  have hexpr :=
    h { s with depth := 0, maxDepth := 1 } (brace :: rest) ⟨hs.vars, hs.block, hs.search, hs.last⟩
    (.cons (.inr (.inr (.inl hbrace))))
  rw [hts, herror] at hexpr
  rcases hexpr with ⟨x, hok, -⟩ | ⟨pos, hfail⟩
  · cases hok
  · cases hfail

/-! ## statements -/

/-- A statement begins there, or a block ends, and no further arm of a conditional. -/
def Breaks (ts : List Token) : Prop :=
  ∀ t ∈ ts.head?, (t.kind = .identifier ∨ t.kind = .rbrace ∨ t.kind = .keyword) ∧
    t.isWord "elif" = false ∧ t.isWord "else" = false

theorem Breaks.halts {ts : List Token} (h : Breaks ts) : Halts ts := by
  intro t ht
  rcases (h t ht).1 with hkind | hkind | hkind <;> rw [hkind] <;> decide

theorem breaks_rbrace {t : Token} (h : t.kind = .rbrace) (rest : List Token) :
    Breaks (t :: rest) := by
  intro x hx
  obtain rfl := Option.some.inj hx
  simp [h, Token.isWord]

/-- The tokens are a statement with the property. -/
structure IsStmt (search : List String) (P : Stmt → Prop) (ts : List Token) : Prop where
  start : ∃ t more, ts = t :: more ∧ (t.kind = .identifier ∨ t.kind = .keyword) ∧
    t.isWord "elif" = false ∧ t.isWord "else" = false
  reads : ∀ (s : Scope) (found : Found) rest, s.Open search → found.vars = [] → Breaks rest →
    Gives (fun r => ∃ st, r = ([st], found) ∧ P st) rest (outcome (statement s found (ts ++ rest)))

/-- The tokens are statements with the property, between those before them and those behind them. -/
structure IsBlock (search : List String) (P : List Stmt → Prop) (ts : List Token) : Prop where
  breaks : ∀ rest, Breaks rest → Breaks (ts ++ rest)
  reads : ∀ (s : Scope) (found : Found) rest, s.Open search → found.vars = [] → Breaks rest →
    (∃ sts, P sts ∧
      outcome (body s found (ts ++ rest)) =
        (outcome (body s found rest) >>= fun more => .ok ((sts ++ more.1.1, more.1.2), more.2)) ∧
      statements s found (ts ++ rest) =
        (statements s found rest >>= fun more => .ok (sts ++ more.1, more.2))) ∨
    ∃ pos, outcome (body s found (ts ++ rest)) = fail .nestingTooDeep pos ∧
      statements s found (ts ++ rest) = fail .nestingTooDeep pos

namespace IsBlock

variable {P P' : List Stmt → Prop} {ts ts' : List Token}

theorem mono (h : IsBlock search P ts) (hP : ∀ sts, P sts → P' sts) : IsBlock search P' ts :=
  ⟨h.breaks, fun s found rest hs hfound hrest =>
    (h.reads s found rest hs hfound hrest).imp_left fun ⟨sts, hsts, hreads⟩ =>
      ⟨sts, hP sts hsts, hreads⟩⟩

theorem nil (h : P []) : IsBlock search P [] where
  breaks _ := id
  reads s found rest _ _ _ := by
    refine .inl ⟨[], h, ?_, ?_⟩
    · change outcome (body s found rest) = _
      cases outcome (body s found rest) <;> rfl
    · change statements s found rest = _
      cases statements s found rest <;> rfl

theorem append (h : IsBlock search P ts) (h' : IsBlock search P' ts') :
    IsBlock search (fun sts => ∃ us vs, sts = us ++ vs ∧ P us ∧ P' vs) (ts ++ ts') where
  breaks rest hrest := by
    rw [List.append_assoc]
    exact h.breaks _ (h'.breaks rest hrest)
  reads s found rest hs hfound hrest := by
    rw [List.append_assoc]
    rcases h.reads s found (ts' ++ rest) hs hfound (h'.breaks rest hrest)
      with ⟨us, hus, hbody, hstatements⟩ | hfail
    · rcases h'.reads s found rest hs hfound hrest with ⟨vs, hvs, hbody', hstatements'⟩
        | ⟨pos, hfail, hfail'⟩
      · refine .inl ⟨us ++ vs, ⟨us, vs, rfl, hus, hvs⟩, ?_, ?_⟩
        · rw [hbody, hbody']
          cases outcome (body s found rest) with
          | error e => rfl
          | ok more =>
              exact congrArg (fun sts => Except.ok ((sts, more.1.2), more.2))
                (List.append_assoc ..).symm
        · rw [hstatements, hstatements']
          cases statements s found rest with
          | error e => rfl
          | ok more =>
              exact congrArg (fun sts => Except.ok (sts, more.2)) (List.append_assoc ..).symm
      · rw [hbody, hstatements, hfail, hfail']
        exact .inr ⟨pos, rfl, rfl⟩
    · exact .inr hfail

/-- The statements between braces. -/
theorem block (h : IsBlock search P ts) {left right : Token} (hleft : left.kind = .lbrace)
    (hright : right.kind = .rbrace) (s : Scope) (hs : s.Open search) {found : Found}
    (hfound : found.vars = []) (rest : List Token) :
    Gives (fun r => P r.1 ∧ r.2 = found) rest
      (outcome (Parser.block s found (left :: (ts ++ right :: rest)))) := by
  have hexpect : outcome (s.expect .lbrace (left :: (ts ++ right :: rest))) =
      .ok (left, ts ++ right :: rest) := by
    rw [expect, if_pos hleft]
    rfl
  rw [outcome_block, hexpect]
  refine Gives.enter
    (f := fun inner => outcome (body { inner with nested := true } found (ts ++ right :: rest))) ?_
  have hinner : Scope.Open search { s with depth := s.depth + 1, nested := true } :=
    ⟨hs.vars, hs.block, hs.search, hs.last⟩
  have hclose : outcome (body { s with depth := s.depth + 1, nested := true } found
      (right :: rest)) = .ok (([], found), rest) := by
    rw [outcome_body, skipSemicolons, List.dropWhile_cons_of_neg (by simp [hright]), bodyAt,
      if_pos hright]
  rcases h.reads _ found (right :: rest) hinner hfound (breaks_rbrace hright rest)
    with ⟨sts, hsts, hbody, -⟩ | ⟨pos, hfail, -⟩
  · rw [hbody, hclose]
    exact .ok ⟨by rwa [List.append_nil], rfl⟩
  · exact .inr ⟨pos, hfail⟩

/-- Statements behind statements are statements of both. -/
theorem phrase_append {lines more : String} {Q : List Stmt → Prop}
    (h : Phrase (fun _ => True) lines (IsBlock search P))
    (h' : Phrase (fun _ => True) more (IsBlock search P'))
    (hQ : ∀ us vs, P us → P' vs → Q (us ++ vs)) :
    Phrase (fun _ => True) (lines ++ more) (IsBlock search Q) := by
  refine (h.append h' fun _ _ => trivial).mono (fun _ => id) ?_
  rintro _ ⟨ts, ts', rfl, hts, hts'⟩
  refine (hts.append hts').mono ?_
  rintro _ ⟨us, vs, rfl, hus, hvs⟩
  exact hQ us vs hus hvs

end IsBlock

namespace IsStmt

variable {P : Stmt → Prop} {ts : List Token}

/-- One statement. -/
theorem isBlock (h : IsStmt search P ts) :
    IsBlock search (fun sts => ∃ st, sts = [st] ∧ P st) ts := by
  obtain ⟨t, more, rfl, hkind, hwords⟩ := h.start
  refine ⟨fun rest _ x hx => ?_, fun s found rest hs hfound hrest => ?_⟩
  · obtain rfl := Option.some.inj hx
    exact ⟨hkind.imp_right .inr, hwords⟩
  · have hother : t.kind ≠ .semicolon ∧ t.kind ≠ .rbrace ∧ t.kind ≠ .endOfInput := by
      rcases hkind with h | h <;> rw [h] <;> decide
    have hskip : skipSemicolons (t :: more ++ rest) = t :: more ++ rest :=
      List.dropWhile_cons_of_neg (by simpa using hother.1)
    have hbody : outcome (body s found (t :: more ++ rest)) =
        outcome (statement s found (t :: more ++ rest)) >>= fun st =>
        outcome (body s st.1.2 st.2) >>= fun more =>
            .ok ((st.1.1 ++ more.1.1, more.1.2), more.2) := by
      rw [outcome_body, hskip, List.cons_append, bodyAt, if_neg hother.2.1, if_neg hother.2.2]
    have hstatements : statements s found (t :: more ++ rest) =
        outcome (statement s found (t :: more ++ rest)) >>= fun st =>
        statements s st.1.2 st.2 >>= fun more => .ok (st.1.1 ++ more.1, more.2) := by
      rw [statements_eq, hskip, List.cons_append, statementsAt, if_neg hother.2.2]
    rw [hbody, hstatements]
    rcases h.reads s found rest hs hfound hrest with ⟨_, hok, st, rfl, hst⟩ | ⟨pos, hfail⟩
    · rw [hok]
      exact .inl ⟨[st], ⟨st, rfl, hst⟩, rfl, rfl⟩
    · rw [hfail]
      exact .inr ⟨pos, rfl, rfl⟩

/-- A chain that is an expression is a statement. -/
theorem run {C : List Call → Option Expr → Prop}
    (hstart : ∃ t more, ts = t :: more ∧ t.kind = .identifier)
    (h : Denotes search (fun e => ∃ cs out, C cs out ∧ Expr.Chains cs out e) ts) :
    IsStmt search (fun st => ∃ cs out pos pos', C cs out ∧ st = .run { calls := cs, out, pos } pos')
      ts := by
  obtain ⟨t, more, rfl, hkind⟩ := hstart
  have hwords : ∀ w, t.isWord w = false := fun w => by simp [Token.isWord, hkind]
  refine ⟨⟨t, more, rfl, .inl hkind, hwords _, hwords _⟩, fun s found rest hs hfound hrest => ?_⟩
  have hs' : Scope.Open search { s with vars := found.vars } :=
    ⟨hfound, hs.block, hs.search, hs.last⟩
  have hstatement : outcome (statement s found (t :: (more ++ rest))) =
      outcome (chainStatement { s with vars := found.vars } (t :: (more ++ rest))) >>= fun st =>
          .ok (([st.1], found), st.2) := by
    rw [outcome_statement]
    simp [hwords]
  rw [List.cons_append, hstatement, outcome_chainStatement]
  refine (Gives.bind (h _ rest hs' hrest.halts) (Q := fun st => ∃ cs out pos pos', C cs out ∧
    st = .run { calls := cs, out, pos } pos') ?_).bind fun st hst => .ok ⟨st, rfl, hst⟩
  rintro e ⟨cs, out, hcs, ⟨c, rfl, rfl, rfl⟩ | ⟨-, pos, rfl⟩⟩
  · exact .ok ⟨_, _, c.pos, c.pos, hcs, rfl⟩
  · exact .ok ⟨_, _, pos, pos, hcs, rfl⟩

/-- A condition around statements. -/
theorem choose {E : Expr → Prop} {P : List Stmt → Prop} {cond : List Token} {pos : Pos}
    {left right : Token} (hcond : Denotes search E cond) (hleft : left.kind = .lbrace)
    (hright : right.kind = .rbrace) (h : IsBlock search P ts) :
    IsStmt search (fun st => ∃ e body pos pos', E e ∧ P body ∧
      st = .choose [⟨e, body, pos⟩] none pos')
      (⟨.keyword, Bytes.ofString "if", pos⟩ :: (cond ++ left :: (ts ++ [right]))) := by
  refine ⟨⟨_, _, rfl, .inr rfl, by simp [Token.isWord, Token.word_ofString],
    by simp [Token.isWord, Token.word_ofString]⟩, fun s found rest hs hfound hrest => ?_⟩
  have hs' : Scope.Open search { s with vars := found.vars } :=
    ⟨hfound, hs.block, hs.search, hs.last⟩
  have hstatement : ∀ more,
      outcome (statement s found (⟨.keyword, Bytes.ofString "if", pos⟩ :: more)) =
      outcome (branches { s with vars := found.vars } found pos [] more pos) >>= fun z =>
          .ok (([z.1.1], z.1.2), z.2) := by
    intro more
    rw [outcome_statement]
    simp [Token.isWord, Token.word_ofString]
  rw [List.cons_append, hstatement, List.append_assoc, List.cons_append, List.append_assoc,
    List.singleton_append, outcome_branches]
  have hbranches : Gives (fun r => ∃ e body, E e ∧ P body ∧
      r = (.choose [⟨e, body, pos⟩] none pos, found)) rest
      (outcome (expr { s with vars := found.vars } (cond ++ left :: (ts ++ right :: rest))) >>=
          fun cond =>
        outcome (Parser.block { s with vars := found.vars } found cond.2) >>= fun body =>
        furtherArms { s with vars := found.vars } pos ([] ++ [⟨cond.1, body.1.1, pos⟩]) body.1.2
            body.2) := by
    refine (hcond _ (left :: (ts ++ right :: rest)) hs' (.cons (.inr (.inr (.inl hleft))))).bind
      fun e he => ?_
    refine (h.block hleft hright _ hs' hfound rest).bind fun body hbody => ?_
    obtain ⟨sts, _⟩ := body
    obtain ⟨hsts, rfl⟩ := hbody
    refine .inl ⟨_, ?_, e, sts, he, hsts, rfl⟩
    cases rest with
    | nil => rfl
    | cons t rest =>
      obtain ⟨-, helif, helse⟩ := hrest t rfl
      rw [furtherArms, if_neg (by simp [helif]), if_neg (by simp [helse])]
      rfl
  refine hbranches.bind ?_
  rintro _ ⟨e, body, he, hbody, rfl⟩
  exact .ok ⟨_, rfl, e, body, pos, pos, he, hbody, rfl⟩

/-- A loop around statements. -/
theorem repeated {E : Expr → Prop} {P : List Stmt → Prop} {count : List Token} {pos : Pos}
    {left right : Token} (hcount : Denotes search E count) (hleft : left.kind = .lbrace)
    (hright : right.kind = .rbrace) (h : IsBlock search P ts) :
    IsStmt search (fun st => ∃ e body pos, E e ∧ P body ∧ st = .repeated (some e) body pos)
      (⟨.keyword, Bytes.ofString "loop", pos⟩ :: (count ++ left :: (ts ++ [right]))) := by
  refine ⟨⟨_, _, rfl, .inr rfl, by simp [Token.isWord, Token.word_ofString],
    by simp [Token.isWord, Token.word_ofString]⟩, fun s found rest hs hfound hrest => ?_⟩
  have hs' : Scope.Open search { s with vars := found.vars } :=
    ⟨hfound, hs.block, hs.search, hs.last⟩
  have hstatement : ∀ more,
      outcome (statement s found (⟨.keyword, Bytes.ofString "loop", pos⟩ :: more)) =
      loopAt { s with vars := found.vars } found pos more := by
    intro more
    rw [outcome_statement]
    simp [Token.isWord, Token.word_ofString]
  rw [List.cons_append, hstatement, List.append_assoc, List.cons_append, List.append_assoc,
    List.singleton_append, loopAt, if_neg (hcount.peek_ne _ hs' hleft)]
  refine (hcount _ (left :: (ts ++ right :: rest)) hs' (.cons (.inr (.inr (.inl hleft))))).bind
    fun e he => ?_
  have hinner : Scope.Open search { s with vars := found.vars, inLoop := true } :=
    ⟨hfound, hs.block, hs.search, hs.last⟩
  refine (h.block hleft hright _ hinner hfound rest).bind fun body hbody => ?_
  obtain ⟨sts, _⟩ := body
  obtain ⟨hsts, rfl⟩ := hbody
  exact .ok ⟨_, rfl, e, sts, pos, he, hsts, rfl⟩

end IsStmt

/-! ## texts of statements -/

variable {P : List Stmt → Prop} {E : Expr → Prop} {inner head : String}

/-- A word, an expression, and statements in braces behind it. -/
theorem phrase_headed {w : String} (hword : IsWord w) (hsurface : surfaceWord? w.toList = none)
    (hkeyword : isKeyword w = true) {ends : Bytes → Prop} (hends : ∀ after, ends (123 :: after))
    (hhead : Phrase ends (head ++ " ") (Denotes search E))
    (hinner : Phrase (fun _ => True) inner (IsBlock search P)) :
    Phrase (fun _ => True) (w ++ " " ++ head ++ " \x7b\n" ++ inner ++ "\x7d\n") fun ts =>
      ∃ pos us left vs right, ts = ⟨.keyword, Bytes.ofString w, pos⟩ ::
        (us ++ left :: (vs ++ [right])) ∧
        Denotes search E us ∧ left.kind = .lbrace ∧ right.kind = .rbrace ∧ IsBlock search P vs := by
  have hrbrace : Phrase (fun _ => True) "\x7d" (IsToken .rbrace [125]) := Phrase.rbrace
  have hclose : Phrase (fun _ => True) ("\x7d" ++ "\n") (IsToken .rbrace [125]) :=
    hrbrace.append_gap Phrase.newline fun _ _ => trivial
  have hbody : Phrase (fun _ => True) (inner ++ ("\x7d" ++ "\n")) _ :=
    hinner.append hclose fun _ _ => trivial
  have hlbrace : Phrase (fun _ => True) "\x7b" (IsToken .lbrace [123]) := Phrase.lbrace
  have hopen : Phrase (fun _ => True) ("\x7b" ++ "\n") (IsToken .lbrace [123]) :=
    hlbrace.append_gap Phrase.newline fun _ _ => trivial
  have hbraces : Phrase (fun _ => True) (("\x7b" ++ "\n") ++ (inner ++ ("\x7d" ++ "\n"))) _ :=
    hopen.append hbody fun _ _ => trivial
  have hheaded : Phrase (fun _ => True)
      ((head ++ " ") ++ (("\x7b" ++ "\n") ++ (inner ++ ("\x7d" ++ "\n")))) _ :=
    hhead.append hbraces fun after _ => by
      rw [Bytes.ofString_append, Bytes.ofString_append]
      exact hends _
  have hstart : Phrase (fun _ => True) (w ++ " ") (IsToken .keyword (Bytes.ofString w)) :=
    (Phrase.keyword hword hsurface hkeyword).append_gap Phrase.space fun after _ b hb => by
      obtain rfl := Option.some.inj hb
      rfl
  have htext : w ++ " " ++ head ++ " \x7b\n" ++ inner ++ "\x7d\n" =
      (w ++ " ") ++ ((head ++ " ") ++ (("\x7b" ++ "\n") ++ (inner ++ ("\x7d" ++ "\n")))) := by
    have hsigns : " \x7b\n" = " " ++ ("\x7b" ++ "\n") ∧ "\x7d\n" = "\x7d" ++ "\n" := ⟨rfl, rfl⟩
    rw [hsigns.1, hsigns.2]
    simp only [String.append_assoc]
  rw [htext]
  refine (hstart.append hheaded fun _ _ => trivial).mono (fun _ => id) ?_
  rintro _ ⟨_, _, rfl, ⟨pos, rfl⟩, us, _, rfl, hus, _, _, rfl, ⟨pos', rfl⟩, vs, _, rfl, hvs,
    ⟨pos'', rfl⟩⟩
  exact ⟨pos, us, _, vs, _, rfl, hus, rfl, rfl, hvs⟩

/-- The text of a condition around statements. -/
theorem phrase_choose {ends : Bytes → Prop} (hends : ∀ after, ends (123 :: after))
    (hcond : Phrase ends (head ++ " ") (Denotes search E))
    (hinner : Phrase (fun _ => True) inner (IsBlock search P)) :
    Phrase (fun _ => True) ("if " ++ head ++ " \x7b\n" ++ inner ++ "\x7d\n")
      (IsStmt search fun st => ∃ e body pos pos', E e ∧ P body ∧
        st = .choose [⟨e, body, pos⟩] none pos') := by
  refine (phrase_headed (w := "if") (by decide +kernel) (by decide) (by decide) hends hcond
    hinner).mono (fun _ => id) ?_
  rintro _ ⟨pos, us, left, vs, right, rfl, hus, hleft, hright, hvs⟩
  exact .choose hus hleft hright hvs

/-- The text of a loop around statements. -/
theorem phrase_repeated {ends : Bytes → Prop} (hends : ∀ after, ends (123 :: after))
    (hcount : Phrase ends (head ++ " ") (Denotes search E))
    (hinner : Phrase (fun _ => True) inner (IsBlock search P)) :
    Phrase (fun _ => True) ("loop " ++ head ++ " \x7b\n" ++ inner ++ "\x7d\n")
      (IsStmt search fun st => ∃ e body pos, E e ∧ P body ∧ st = .repeated (some e) body pos) := by
  refine (phrase_headed (w := "loop") (by decide +kernel) (by decide) (by decide) hends hcount
    hinner).mono (fun _ => id) ?_
  rintro _ ⟨pos, us, left, vs, right, rfl, hus, hleft, hright, hvs⟩
  exact .repeated hus hleft hright hvs

/-! ## programs -/

/-- The names of a search directive, each behind the one before it. -/
theorem phrase_names {names : List String} (hne : names ≠ []) (hnames : ∀ n ∈ names, IsName n)
    (hnodup : names.Nodup) :
    Phrase EndsWord (", ".intercalate names) fun ts => ∀ (s : Scope) (found : List String) rest,
      (∀ n ∈ names, n ∉ found) → (∀ c ∈ rest.head?, c.kind ≠ .comma) →
      outcome (searchNames s found (ts ++ rest)) = .ok (found ++ names, rest) := by
  induction names with
  | nil => exact absurd rfl hne
  | cons n names ih =>
    obtain ⟨hn, hnames⟩ := List.forall_mem_cons.1 hnames
    obtain ⟨hfresh, hnodup⟩ := List.nodup_cons.1 hnodup
    have hname : ∀ (s : Scope) (found : List String) (pos : Pos) more, n ∉ found →
        outcome (searchNames s found (⟨.identifier, Bytes.ofString n, pos⟩ :: more)) =
            furtherNames s (found ++ [n]) more := by
      intro s found pos more hfound
      have hexpect : outcome (s.expect .identifier (⟨.identifier, Bytes.ofString n, pos⟩ :: more)) =
          .ok (⟨.identifier, Bytes.ofString n, pos⟩, more) := rfl
      rw [outcome_searchNames, hexpect]
      change furtherNames s (if found.contains (Token.word _) then found else found ++
        [Token.word _]) more = _
      rw [Token.word_ofString, if_neg (by simpa using hfound)]
    cases names with
    | nil =>
      rw [String.intercalate_singleton]
      refine (Phrase.name hn).mono (fun _ => id) ?_
      rintro _ ⟨pos, rfl⟩ s found rest hfound hrest
      rw [List.singleton_append, hname s found pos rest (hfound n (by simp))]
      cases rest with
      | nil => rfl
      | cons c rest => rw [furtherNames, if_neg (hrest c rfl)]
    | cons m names =>
      rw [String.intercalate_cons_cons]
      have hcomma : Phrase (fun _ => True) "," (IsToken .comma [44]) := Phrase.comma
      have hfirst : Phrase (fun _ => True) (n ++ ("," ++ " ")) _ :=
        (Phrase.name hn).append (hcomma.append_gap Phrase.space fun _ _ => trivial)
            fun after _ b hb => by
          obtain rfl := Option.some.inj hb
          rfl
      refine (hfirst.append (ih (by simp) hnames hnodup) fun _ _ => trivial).mono (fun _ => id) ?_
      rintro _ ⟨_, more, rfl, ⟨_, _, rfl, ⟨pos, rfl⟩, ⟨pos', rfl⟩⟩, hmore⟩ s found rest hfound hrest
      rw [List.singleton_append, List.cons_append, List.cons_append,
        hname s found pos _ (hfound n (by simp)), List.singleton_append, List.cons_append,
          furtherNames, if_pos rfl, hmore s _ rest ?_ hrest, List.append_assoc]
      · rfl
      · intro x hx hmem
        rcases List.mem_append.1 hmem with h | h
        · exact hfound x (List.mem_cons_of_mem _ hx) h
        · exact hfresh (List.mem_singleton.1 h ▸ hx)

/-- The tokens end a program, and name the surface to show if there is one. -/
structure IsEnd (render : Option Surface) (ts : List Token) : Prop where
  breaks : Breaks ts
  reads : ∀ (s : Scope) (found : Found), s.nested = false → found.render = none →
    ∃ r, statements s found ts = .ok ([], { found with render := r }) ∧ r.map (·.1) = render

theorem isEnd_nil : IsEnd none [] :=
  ⟨nofun, fun s found _ hrender => ⟨none, by
    rw [statements_eq]
    obtain ⟨vars, render⟩ := found
    obtain rfl : render = none := hrender
    rfl, rfl⟩⟩

/-- The directive that names the surface to show. -/
theorem phrase_render {n : String} {o : Surface} (hname : Surface.ofName? n = some o)
    (hword : IsWord n) (hsurface : Phrase EndsWord n (IsToken .surface (Bytes.ofString n))) :
    Phrase (fun _ => True) ("render(" ++ n ++ ")\n") (IsEnd (some o)) := by
  obtain ⟨-, b, bs, hbytes, hstart⟩ := hword.bytes
  have hrparen : Phrase (fun _ => True) ")" (IsToken .rparen [41]) := Phrase.rparen
  have hparen : Phrase (fun _ => True) (")" ++ "\n") (IsToken .rparen [41]) :=
    hrparen.append_gap Phrase.newline fun _ _ => trivial
  have hclose : Phrase (fun _ => True) (n ++ (")" ++ "\n")) _ :=
      hsurface.append hparen fun after _ => by
    rw [Bytes.ofString_append]
    rintro b ⟨⟩
    rfl
  have hopen : Phrase (fun _ => True) ("(" ++ (n ++ (")" ++ "\n"))) _ :=
      Phrase.lparen.append hclose fun after _ => by
    have hbehind : Bytes.ofString (n ++ (")" ++ "\n")) ++ after = Bytes.ofString n ++ 41 :: 10 ::
        after := by
      rw [Bytes.ofString_append, Bytes.ofString_append, List.append_assoc, List.append_assoc]
      rfl
    rw [hbehind, hbytes]
    exact closureHead?_eq_none (.inr ⟨b, bs, rfl, isBlank_of_isNameStart hstart⟩)
  have hrender : Phrase (fun _ => True) ("render" ++ ("(" ++ (n ++ (")" ++ "\n")))) _ :=
    (Phrase.keyword (n := "render") (by decide +kernel) (by decide) (by decide)).append hopen
        fun after _ => by
      rw [Bytes.ofString_append]
      rintro b ⟨⟩
      rfl
  have htext : "render(" ++ n ++ ")\n" = "render" ++ ("(" ++ (n ++ (")" ++ "\n"))) := by
    have hsigns : "render(" = "render" ++ "(" ∧ ")\n" = ")" ++ "\n" := ⟨rfl, rfl⟩
    rw [hsigns.1, hsigns.2]
    simp only [String.append_assoc]
  rw [htext]
  refine hrender.mono (fun _ => id) ?_
  rintro _ ⟨_, _, rfl, ⟨pos, rfl⟩, _, _, rfl, ⟨pos', rfl⟩, _, _, rfl, ⟨pos'', rfl⟩, ⟨pos₃, rfl⟩⟩
  refine ⟨fun t ht => ?_, fun s found hnested hfound => ⟨some (o, pos''), ?_, rfl⟩⟩
  · obtain rfl := Option.some.inj ht
    simp [Token.isWord, Token.word_ofString]
  · have htarget : outcome (renderTarget { s with vars := found.vars } found pos
        [⟨.lparen, [40], pos'⟩, ⟨.surface, Bytes.ofString n, pos''⟩, ⟨.rparen, [41], pos₃⟩]) =
            .ok ((o, pos''), []) := by
      have hread : surfaceOf ⟨.surface, Bytes.ofString n, pos''⟩ = o := by
        rw [surfaceOf, Token.word_ofString, hname, Option.getD_some]
      rw [outcome_renderTarget, if_neg (by simp [hnested]), if_neg (by simp [hfound]), ← hread]
      rfl
    have hstatement : ∀ more,
        outcome (statement s found (⟨.keyword, Bytes.ofString "render", pos⟩ :: more)) =
        outcome (renderTarget { s with vars := found.vars } found pos more) >>= fun target =>
          .ok (([], { found with render := some target.1 }), target.2) := by
      intro more
      rw [outcome_statement]
      simp [Token.isWord, Token.word_ofString]
    simp only [List.cons_append, List.nil_append]
    rw [statements_eq, skipSemicolons, List.dropWhile_cons_of_neg (by simp), statementsAt,
      if_neg (by simp), hstatement, htarget]
    change (statements s _ [] >>= _) = _
    rw [statements_eq]
    rfl

end Parser

open EffectChain.Parser EffectChain.Lexer

/-- Tokens that begin with a search directive are the program of what is behind it. -/
theorem Program.ofTokens_search {search : List String} {options : Options} {t last : Token}
    {us rest : List Token} (ht : t.kind ≠ .semicolon ∧ t.isWord "search" = true)
    (hus : ∀ s : Scope, outcome (searchNames s [] (us ++ rest)) = .ok (search, rest))
    (hlast : last.kind = .endOfInput) :
    ofTokens options (t :: us ++ rest ++ [last]) =
      Parser.statements { last, maxDepth := options.maxDepth, search } {} rest >>= fun r =>
        .ok { search, statements := r.1, vars := r.2.vars, render := r.2.render } := by
  have hsplit : splitLast (t :: us ++ rest ++ [last]) = (t :: us ++ rest, last) := by
    rw [splitLast, List.getLast?_concat]
    dsimp only
    rw [if_pos hlast, List.dropLast_concat]
  have hheader : ∀ s : Scope, header s (skipSemicolons (t :: us ++ rest)) = .ok (search, rest) := by
    intro s
    rw [List.cons_append, skipSemicolons, List.dropWhile_cons_of_neg (by simp [ht.1]),
      header_search s ht.2, hus]
  unfold ofTokens
  rw [hsplit]
  dsimp only
  rw [hheader]
  rfl

/-- Statements behind a search directive, and what names the surface to show, are a program; only
the nesting can keep it from being read. -/
theorem Program.exists_of_block {search : List String} {P : List Stmt → Prop} {lines final : String}
    {render : Option Surface} (hne : search ≠ []) (hnodup : search.Nodup)
    (hnames : ∀ n ∈ search, IsName n) (hlines : Phrase (fun _ => True) lines (IsBlock search P))
    (hfinal : Phrase (fun _ => True) final (IsEnd render)) {options : Options} {text : String}
    (htext : text = "search " ++ ", ".intercalate search ++ "\n" ++ lines ++ final)
    (hdeep : ∀ e, Program.parse options (Bytes.ofString text) = .error e →
      e.cause ≠ .nestingTooDeep) :
    ∃ program, Program.parse options (Bytes.ofString text) = .ok program ∧ program.search = search ∧
      program.render.map (·.1) = render ∧ P program.statements := by
  have hstart : Phrase (fun _ => True) ("search" ++ " ")
      (IsToken .keyword (Bytes.ofString "search")) :=
    (Phrase.keyword (n := "search") (by decide +kernel) (by decide) (by decide)).append_gap
        Phrase.space fun after _ b hb => by
      obtain rfl := Option.some.inj hb
      rfl
  have hdirective : Phrase (fun _ => True) (", ".intercalate search ++ "\n") _ :=
    (phrase_names hne hnames hnodup).append_gap Phrase.newline fun after _ b hb => by
      obtain rfl := Option.some.inj hb
      rfl
  have hrest : Phrase (fun _ => True) (lines ++ final) _ := hlines.append hfinal fun _ _ => trivial
  have hbehind : Phrase (fun _ => True) ((", ".intercalate search ++ "\n") ++ (lines ++ final)) _ :=
    hdirective.append hrest fun _ _ => trivial
  have hall : Phrase (fun _ => True)
      (("search" ++ " ") ++ ((", ".intercalate search ++ "\n") ++ (lines ++ final))) _ :=
    hstart.append hbehind fun _ _ => trivial
  have hsame : text = ("search" ++ " ") ++
      ((", ".intercalate search ++ "\n") ++ (lines ++ final)) := by
    have hsigns : "search " = "search" ++ " " := rfl
    rw [htext, hsigns]
    simp only [String.append_assoc]
  obtain ⟨_, pos, hscan, _, _, rfl, ⟨pos', rfl⟩, us, _, rfl, hus, vs, ws, rfl, hvs, hws⟩ :=
    hall .start [] trivial
  rw [← hsame, List.append_nil] at hscan
  obtain ⟨t, ht⟩ : ∃ t : Token, ⟨.keyword, Bytes.ofString "search", pos'⟩ = t := ⟨_, rfl⟩
  obtain ⟨last, hlast⟩ : ∃ last : Token, ⟨.endOfInput, [], pos⟩ = last := ⟨_, rfl⟩
  have hscan' : Token.scan (Bytes.ofString text) = .ok (t :: us ++ (vs ++ ws) ++ [last]) := by
    rw [Token.scan, hscan, tokensFrom, ht, ← hlast]
    rfl
  have hcomma : ∀ c ∈ (vs ++ ws).head?, c.kind ≠ .comma := by
    intro c hc
    rcases (hvs.breaks ws hws.breaks c hc).1 with h | h | h <;> rw [h] <;> decide
  have hnamesRead : ∀ s : Scope, outcome (searchNames s [] (us ++ (vs ++ ws))) =
      .ok (search, vs ++ ws) := fun s => hus s [] (vs ++ ws) (by simp) hcomma
  have hprogram : ofTokens options (t :: us ++ (vs ++ ws) ++ [last]) = _ := ofTokens_search
    ⟨by simp [← ht], by simp [← ht, Token.isWord, Token.word_ofString]⟩ hnamesRead
    (by rw [← hlast])
  have hparse : Program.parse options _ = _ := Program.parse_of_scan hscan'
  rcases hvs.reads { last, maxDepth := options.maxDepth, search } {} ws ⟨rfl, rfl, rfl,
      by rw [← hlast]⟩ rfl hws.breaks with
    ⟨sts, hsts, -, hstatements⟩ | ⟨pos'', -, hfail⟩
  · obtain ⟨r, hread, hr⟩ := hws.reads { last, maxDepth := options.maxDepth, search } {} rfl rfl
    rw [hread] at hstatements
    rw [hprogram, hstatements] at hparse
    exact ⟨_, hparse, rfl, hr, by simpa using hsts⟩
  · rw [hprogram, hfail] at hparse
    exact absurd rfl (hdeep _ hparse)

end EffectChain
