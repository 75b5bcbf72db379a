import EffectChain.Proofs.Program.Reading
import EffectChain.Proofs.Token.Tiling

/-!
# EffectChain.Proofs.Program.Statements

What the parser of statements makes of the tokens.

Statements hand on the names that were bound and the render target that was directed before
them.  So what is kept of a stretch of tokens (`Parser.ReadBlock`) is told from the state
before it to the state behind it, and stretches are put together with
`Parser.ReadBlock.append`, also those of a namespace.  Blocks direct nothing
(`Renders.of_nested`), as the parser refuses a directive in them.

* `Parser.reads_statement`, `Parser.reads_body` — what one statement keeps, and a run of them;
* `Program.exists_wellFormed` — a source that is read is a well-formed program.
-/

namespace EffectChain

/-! ## names and braces -/

/-- A name that is bound once more is listed where it was, or last. -/
theorem eraseDups_concat (names : List String) (name : String) : (names ++ [name]).eraseDups =
    if name ∈ names then names.eraseDups else names.eraseDups ++ [name] := by
  rw [List.eraseDups_append]
  split <;> simp [*, List.removeAll, List.eraseDups_cons]

theorem nodup_eraseDups : ∀ names : List String, names.eraseDups.Nodup
  | [] => .nil
  | name :: names => by
    rw [List.eraseDups_cons, List.nodup_cons]
    exact ⟨by simp, nodup_eraseDups _⟩
termination_by names => names.length
decreasing_by exact Nat.lt_succ_of_le (List.length_filter_le _ _)

theorem Inline.closed {ts : List Token} (h : Inline ts) : Matched .lbrace .rbrace ts :=
  .of_forall h.braces

/-! ## the render directive -/

/-- What reading tokens does to the render target: nothing, or they direct it for the first
time, outside all blocks. -/
def Renders (nested : Bool) (used : List Token) (before after : Option (Surface × Pos)) : Prop :=
  Directs used none ∧ after = before ∨ nested = false ∧ before = none ∧ ∃ x, after = some x ∧
    Directs used (some x)

theorem directs_none_iff {ts : List Token} :
    Directs ts none ↔ ∀ t ∈ ts, t.isWord "render" = false :=
  ⟨fun | .none h => h, .none⟩

theorem isWord_eq_false {t : Token} {kind : TokenKind} (h : t.kind = kind) (hkind : kind ≠ .keyword)
    (w : String) :
    t.isWord w = false := by simp [Token.isWord, h, hkind]

namespace Directs

variable {ts more : List Token} {x : Surface × Pos}

/-- What stands before a directive does not matter. -/
theorem before (hts : Matched .lbrace .rbrace ts) (hnone : ∀ t ∈ ts, t.isWord "render" = false)
    (h : Directs more (some x)) : Directs (ts ++ more) (some x) := by
  cases h with
  | one hbefore hword hleft htarget hright honly =>
    rw [← List.append_assoc]
    refine .one (.closed hts hbefore) hword hleft htarget hright ?_
    rw [List.append_assoc]
    exact List.forall_mem_append.2 ⟨hnone, honly⟩

/-- What stands behind a directive does not matter. -/
theorem behind (hnone : ∀ t ∈ more, t.isWord "render" = false) (h : Directs ts (some x)) :
    Directs (ts ++ more) (some x) := by
  cases h with
  | @one before after _ _ _ _ hbefore hword hleft htarget hright honly =>
    have hall : ∀ t ∈ before ++ (after ++ more), t.isWord "render" = false := by
      rw [← List.append_assoc]
      exact List.forall_mem_append.2 ⟨honly, hnone⟩
    rw [List.append_assoc]
    exact .one hbefore hword hleft htarget hright hall

/-- A directive may stand in a namespace block. -/
theorem space {word name brace : Token} (hword : word.isWord "namespace")
    (hname : name.kind = .identifier) (hbrace : brace.kind = .lbrace) (h : Directs ts (some x)) :
    Directs (word :: name :: brace :: ts) (some x) := by
  cases h with
  | @one before after r left target right hbefore hr hleft htarget hright honly =>
    refine @one (word :: name :: brace :: before) after r left target right
      (.space hword hname hbrace hbefore) hr
      hleft htarget hright ?_
    have hother : word.isWord "render" = false := by
      simp only [Token.isWord, Bool.and_eq_true, decide_eq_true_eq] at hword
      simp [Token.isWord, hword.2]
    simp only [List.cons_append, List.mem_cons, forall_eq_or_imp]
    exact ⟨hother, isWord_eq_false hname (by decide) _, isWord_eq_false hbrace (by decide) _, honly⟩

end Directs

namespace Renders

variable {nested : Bool} {ts more : List Token} {r r' r'' : Option (Surface × Pos)}

theorem none (h : ∀ t ∈ ts, t.isWord "render" = false) : Renders nested ts r r :=
  .inl ⟨.none h, rfl⟩

/-- A `render` is found in the first part or in the second. -/
theorem append (hts : Matched .lbrace .rbrace ts) (h : Renders nested ts r r')
    (h' : Renders nested more r' r'') :
    Renders nested (ts ++ more) r r'' := by
  obtain ⟨hnone, rfl⟩ | ⟨hnested, rfl, x, rfl, hx⟩ := h
  · rw [directs_none_iff] at hnone
    obtain ⟨hnone', rfl⟩ | ⟨hnested, rfl, x, rfl, hx⟩ := h'
    · exact .none (List.forall_mem_append.2 ⟨hnone, directs_none_iff.1 hnone'⟩)
    · exact .inr ⟨hnested, rfl, x, rfl, hx.before hts hnone⟩
  · obtain ⟨hnone', rfl⟩ | ⟨-, hsome, -⟩ := h'
    · exact .inr ⟨hnested, rfl, x, rfl, hx.behind (directs_none_iff.1 hnone')⟩
    · cases hsome

/-- Blocks direct nothing. -/
theorem of_nested (h : Renders true ts r r') : (∀ t ∈ ts, t.isWord "render" = false) ∧ r' = r := by
  obtain ⟨hnone, rfl⟩ | ⟨hnested, -⟩ := h
  · exact ⟨directs_none_iff.1 hnone, rfl⟩
  · cases hnested

end Renders

/-! ## what statements take -/

namespace Parser

open Scope

/-- Statements that are read: they are well-formed, take whole blocks, and leave the names
that they bind and the render target that they direct. -/
structure ReadBlock (all : List Token) (inLoop nested : Bool) (found : Found) (used : List Token)
    (r : List Stmt × Found) : Prop where
  formed : ∀ st ∈ r.1, st.Formed all inLoop
  closed : Matched .lbrace .rbrace used
  vars : ∀ names, found.vars = names.eraseDups → r.2.vars = (names ++ Stmt.boundOf r.1).eraseDups
  render : Renders nested used found.render r.2.render

namespace ReadBlock

variable {all used more : List Token} {inLoop nested : Bool} {found found' found'' : Found}
    {sts sts' : List Stmt}

theorem nil (hused : Inline used) : ReadBlock all inLoop nested found used ([], found) :=
  ⟨by simp, hused.closed, fun names h => by simpa [Stmt.boundOf] using h, .none hused.render⟩

/-- Blocks are read one behind the other. -/
theorem append (h : ReadBlock all inLoop nested found used (sts, found'))
    (h' : ReadBlock all inLoop nested found' more (sts', found'')) :
    ReadBlock all inLoop nested found (used ++ more) (sts ++ sts', found'') := by
  refine ⟨List.forall_mem_append.2 ⟨h.formed, h'.formed⟩, h.closed.append h'.closed,
    fun names hnames => ?_, h.render.append h.closed h'.render⟩
  rw [h'.vars _ (h.vars names hnames), Stmt.boundOf_append, List.append_assoc]

/-- One statement that takes no blocks and binds nothing. -/
theorem single {st : Stmt} (hused : Inline used) (hst : st.Formed all inLoop)
    (hbound : st.bound = []) :
    ReadBlock all inLoop nested found used ([st], found) :=
  ⟨by simpa using hst, hused.closed, fun names h => by simpa [Stmt.boundOf, hbound] using h,
    .none hused.render⟩

/-- A jump, which is inside a loop. -/
theorem jump {t : Token} (ht : (t.isWord "break" || t.isWord "continue") = true) :
    ReadBlock all true nested found [t]
      ([if t.isWord "break" then .leaveLoop t.pos else .nextRound t.pos], found) := by
  have hinline : Inline [t] := by
    rw [Bool.or_eq_true] at ht
    exact ht.elim (Inline.of_word · (by decide)) (Inline.of_word · (by decide))
  split
  · exact .single hinline .leaveLoop rfl
  · exact .single hinline .nextRound rfl

/-- A binding; a name that is bound for the first time is listed last. -/
theorem bind {name : String} {value : Expr} {pos : Pos} (hused : Inline used)
    (hvalue : value.Formed all) :
    ReadBlock all inLoop nested found used ([.bind name value pos],
      { found with vars := if found.vars.contains name then found.vars else found.vars ++
                     [name] }) := by
  refine ⟨by simpa using .bind hvalue, hused.closed, fun names hnames => ?_, .none hused.render⟩
  have hbound : Stmt.boundOf [.bind name value pos] = [name] := by simp [Stmt.boundOf, Stmt.bound]
  rw [hbound, eraseDups_concat, hnames]
  simp

/-- A loop. -/
theorem loop {head : List Token} (count : Option Expr) (pos : Pos) (hhead : Inline head)
    (hcount : ∀ e ∈ count, e.Formed all) (h : ReadBlock all true true found used (sts, found')) :
    ReadBlock all inLoop nested found (head ++ used) ([.repeated count sts pos], found') := by
  obtain ⟨hnone, hsame⟩ := h.render.of_nested
  refine ⟨by simpa using .repeated hcount h.formed, hhead.closed.append h.closed,
    fun names hnames => ?_, ?_⟩
  · simpa [Stmt.boundOf, Stmt.bound] using h.vars names hnames
  · rw [hsame]
    exact .none (List.forall_mem_append.2 ⟨hhead.render, hnone⟩)

/-- A block directs nothing. -/
theorem braces {left right : Token} {r : List Stmt × Found} (hleft : left.kind = .lbrace)
    (hright : right.kind = .rbrace) (h : ReadBlock all inLoop true found used r) :
    ReadBlock all inLoop true found (left :: used ++ [right]) r := by
  obtain ⟨hnone, hsame⟩ := h.render.of_nested
  refine ⟨h.formed, .group hleft hright h.closed .nil, h.vars, ?_⟩
  rw [hsame]
  refine .none
    (List.forall_mem_append.2 ⟨List.forall_mem_cons.2 ⟨isWord_eq_false hleft (by decide) _, hnone⟩,
      ?_⟩)
  simpa using isWord_eq_false hright (by decide) _

/-- The statements of a namespace. -/
theorem space {word name left right : Token} {r : List Stmt × Found}
    (hword : word.isWord "namespace") (hname : name.kind = .identifier)
    (hleft : left.kind = .lbrace) (hright : right.kind = .rbrace)
    (h : ReadBlock all inLoop nested found used r) :
    ReadBlock all inLoop nested found (word :: name :: left :: used ++ [right]) r := by
  have hhead : Inline [word, name] :=
    .cons (.of_word hword (by decide)) (.of_kind hname (by decide))
  have hclose : ∀ t ∈ [right], t.isWord "render" = false := by
    simpa using isWord_eq_false hright (by decide) _
  refine ⟨h.formed, hhead.closed.append (.group hleft hright h.closed .nil), h.vars, ?_⟩
  obtain ⟨hnone, hsame⟩ | ⟨hnested, hbefore, x, hafter, hx⟩ := h.render
  · rw [hsame]
    refine .none (List.forall_mem_append.2 ⟨List.forall_mem_append.2 ⟨hhead.render, ?_⟩, hclose⟩)
    exact List.forall_mem_cons.2 ⟨isWord_eq_false hleft (by decide) _, directs_none_iff.1 hnone⟩
  · exact .inr ⟨hnested, hbefore, x, hafter, (hx.space hword hname hleft).behind hclose⟩

/-- The render directive. -/
theorem directive {word left target right : Token} (hnested : nested = false)
    (hfound : found.render = none) (hword : word.isWord "render") (hleft : left.kind = .lparen)
    (htarget : target.kind = .surface) (hright : right.kind = .rparen) :
    ReadBlock all inLoop nested found [word, left, target, right]
      ([], { found with render := some (surfaceOf target, target.pos) }) := by
  have hkinds : ∀ t ∈ [word, left, target, right], t.kind ≠ .lbrace ∧ t.kind ≠ .rbrace := by
    simp only [Token.isWord, Bool.and_eq_true, decide_eq_true_eq] at hword
    simp [hword.1, hleft, htarget, hright]
  have hdirects : Directs [word, left, target, right] (some (surfaceOf target, target.pos)) :=
    @Directs.one [] [] word left target right .nil hword hleft htarget hright (by simp)
  exact ⟨by simp, .of_forall hkinds, fun names h => by simpa [Stmt.boundOf] using h,
    .inr ⟨hnested, hfound, _, rfl, hdirects⟩⟩

end ReadBlock

/-- Arms that are well-formed. -/
def FormedArms (all : List Token) (inLoop : Bool) (arms : List Branch) : Prop :=
  (∀ arm ∈ arms, arm.cond.Formed all) ∧ ∀ arm ∈ arms, ∀ st ∈ arm.body, st.Formed all inLoop

/-- Arms that are read behind others, up to some place of the conditional. -/
structure ReadArms (all : List Token) (inLoop : Bool) (found : Found) (arms : List Branch)
    (used : List Token) (arms' : List Branch) (found' : Found) : Prop where
  formed : FormedArms all inLoop arms'
  closed : Matched .lbrace .rbrace used
  vars : ∀ names, found.vars = (names ++ Stmt.boundOfArms arms).eraseDups →
    found'.vars = (names ++ Stmt.boundOfArms arms').eraseDups
  render : Renders true used found.render found'.render

/-- The rest of a conditional that is read behind some arms. -/
structure ReadChoice (all : List Token) (inLoop : Bool) (found : Found) (arms : List Branch)
    (used : List Token) (r : Stmt × Found) : Prop where
  formed : r.1.Formed all inLoop
  closed : Matched .lbrace .rbrace used
  vars : ∀ names, found.vars = (names ++ Stmt.boundOfArms arms).eraseDups →
    r.2.vars = (names ++ r.1.bound).eraseDups
  render : Renders true used found.render r.2.render

namespace ReadArms

variable {all used more : List Token} {inLoop : Bool} {found found' found'' : Found}
    {arms arms' : List Branch}
  {body : List Stmt}

/-- One more arm. -/
theorem arm {cond : Expr} {head : List Token} (pos : Pos) (harms : FormedArms all inLoop arms)
    (hhead : Inline head) (hcond : cond.Formed all)
    (h : ReadBlock all inLoop true found used (body, found')) :
    ReadArms all inLoop found arms (head ++ used) (arms ++ [⟨cond, body, pos⟩]) found' := by
  refine ⟨⟨?_, ?_⟩, hhead.closed.append h.closed, fun names hnames => ?_,
    .append hhead.closed (.none hhead.render) h.render⟩
  · exact List.forall_mem_append.2 ⟨harms.1, by simpa using hcond⟩
  · exact List.forall_mem_append.2 ⟨harms.2, by simpa using h.formed⟩
  · rw [h.vars _ hnames]
    simp [Stmt.boundOfArms]

/-- A conditional without other arms. -/
theorem ends (h : ReadArms all inLoop found arms used arms' found') (pos : Pos) :
    ReadChoice all inLoop found arms used (.choose arms' none pos, found') :=
  ⟨.choose h.formed.1 h.formed.2 (by simp), h.closed,
    fun names hnames => by simpa [Stmt.bound] using h.vars names hnames, h.render⟩

/-- A conditional with further arms. -/
theorem goesOn {t : Token} {r : Stmt × Found} (h : ReadArms all inLoop found arms used arms' found')
    (ht : Inline [t]) (h' : ReadChoice all inLoop found' arms' more r) :
    ReadChoice all inLoop found arms (used ++ t :: more) r :=
  ⟨h'.formed, h.closed.append (ht.closed.append h'.closed),
    fun names hnames => h'.vars names (h.vars names hnames),
    h.render.append h.closed (.append ht.closed (.none ht.render) h'.render)⟩

/-- A conditional with an arm for all other cases. -/
theorem otherwise {t : Token} (h : ReadArms all inLoop found arms used arms' found')
    (ht : Inline [t]) (h' : ReadBlock all inLoop true found' more (body, found'')) (pos : Pos) :
    ReadChoice all inLoop found arms (used ++ t :: more) (.choose arms' (some body) pos,
      found'') := by
  refine ⟨.choose h.formed.1 h.formed.2 (by simpa using h'.formed),
    h.closed.append (ht.closed.append h'.closed), fun names hnames => ?_,
    h.render.append h.closed (.append ht.closed (.none ht.render) h'.render)⟩
  rw [h'.vars _ (h.vars names hnames), List.append_assoc, Stmt.bound]

end ReadArms

/-- A conditional directs nothing. -/
theorem ReadBlock.choice {all head used : List Token} {inLoop nested : Bool} {found : Found}
    {r : Stmt × Found} (hhead : Inline head) (h : ReadChoice all inLoop found [] used r) :
    ReadBlock all inLoop nested found (head ++ used) ([r.1], r.2) := by
  obtain ⟨hnone, hsame⟩ := h.render.of_nested
  refine ⟨by simpa using h.formed, hhead.closed.append h.closed, fun names hnames => ?_, ?_⟩
  · simpa [Stmt.boundOf] using h.vars names (by simpa [Stmt.boundOfArms] using hnames)
  · rw [hsame]
    exact .none (List.forall_mem_append.2 ⟨hhead.render, hnone⟩)

/-! ## the productions -/

variable {all : List Token}

/-- Semicolons are skipped. -/
theorem exists_skipSemicolons (ts : List Token) :
    ∃ skipped, ts = skipped ++ skipSemicolons ts ∧ Inline skipped := by
  refine ⟨ts.takeWhile (·.kind = .semicolon), List.takeWhile_append_dropWhile.symm, ?_⟩
  have hall : ∀ t ∈ ts.takeWhile (·.kind = .semicolon), t.kind = .semicolon := fun t ht => by
    simpa using List.mem_takeWhile_imp ht
  generalize ts.takeWhile (·.kind = .semicolon) = skipped at hall
  induction skipped with
  | nil => exact .nil
  | cons t skipped ih =>
    obtain ⟨ht, hskipped⟩ := List.forall_mem_cons.1 hall
    exact .cons (.of_kind ht (by decide)) (ih hskipped)

/-- A binding is read from one line. -/
theorem reads_letBinding (s : Scope) (at' : Pos) (ts : List Token) (h : At all s ts) :
    Reads ts (fun used r => Inline used ∧ ∃ value, r.2 = .bind r.1 value at' ∧ value.Formed all)
      (letBinding s at' ts) := by
  unfold letBinding
  refine .bind (reads_expect s .identifier ts) fun name _ hts hname _ => ?_
  obtain ⟨rfl, hkind⟩ := hname
  refine .bind (reads_expect s .assign name.rest) fun eq _ hrest heq _ => ?_
  obtain ⟨rfl, heqKind⟩ := heq
  refine .bind (reads_expr s eq.rest ((h.rest hts).rest hrest)) fun v used _ hv _ =>
    .ok [] rfl ⟨?_, _, rfl, hv.2⟩
  simpa using (Inline.of_kind hkind (by decide)).append
    ((Inline.of_kind heqKind (by decide)).append hv.1)

/-- A chain as a statement is read from one line. -/
theorem reads_chainStatement (inLoop : Bool) (s : Scope) (ts : List Token) (h : At all s ts) :
    Reads ts (fun used st => Inline used ∧ st.Formed all inLoop ∧ st.bound = [])
      (chainStatement s ts) := by
  unfold chainStatement
  refine .bind (reads_expr s ts h) fun e used _ he _ => ?_
  obtain ⟨hinline, he⟩ := he
  split
  · rename_i ch hch
    rw [hch] at he
    exact .ok [] rfl ⟨by simpa using hinline, .run he, rfl⟩
  · rename_i c hc
    rw [hc] at he
    refine .ok [] rfl ⟨by simpa using hinline, .run ?_, rfl⟩
    cases he with
    | leaf hleaf => exact hleaf.elim
    | call hcall hwritten htext =>
      exact .chain (.inr (by simp)) (by simpa using hcall) (by simpa using hwritten) (by simp) htext
  · exact .error

/-- A `render` is read outside of blocks, once, from its three tokens. -/
theorem reads_renderTarget (s : Scope) (found : Found) (at' : Pos) (ts : List Token) :
    Reads ts (fun used x => s.nested = false ∧ found.render = none ∧ ∃ left target right,
      used = [left, target, right] ∧ left.kind = .lparen ∧ target.kind = .surface ∧
      right.kind = .rparen ∧
        x = (surfaceOf target, target.pos))
      (renderTarget s found at' ts) := by
  unfold renderTarget
  split
  · exact .error
  · rename_i hnested
    split
    · exact .error
    · rename_i hrender
      refine .bind (reads_expect s .lparen ts) fun paren _ _ hparen _ => ?_
      refine .bind (reads_expect s .surface paren.rest) fun target _ _ htarget _ => ?_
      refine .bind (reads_expect s .rparen target.rest) fun close _ _ hclose _ => .ok [] rfl ?_
      obtain ⟨rfl, hparenKind⟩ := hparen
      obtain ⟨rfl, htargetKind⟩ := htarget
      obtain ⟨rfl, hcloseKind⟩ := hclose
      exact ⟨by simpa using hnested, by simpa using hrender, _, _, _, rfl, hparenKind, htargetKind,
        hcloseKind, rfl⟩

mutual

/-- A statement is read from its own tokens. -/
theorem reads_statement (s : Scope) (found : Found) (ts : List Token) (h : At all s ts) :
    Reads ts (ReadBlock all s.inLoop s.nested found) (statement s found ts) := by
  match ts, h with
  | [], h =>
    rw [statement]
    refine .bind (reads_chainStatement s.inLoop _ [] (h.scope rfl)) fun st used _ hst _ =>
      .ok [] rfl ?_
    simpa using ReadBlock.single hst.1 hst.2.1 hst.2.2
  | t :: rest, h =>
    have hcons : (t :: rest).length = rest.length + 1 := rfl
    have hrest : At all { s with vars := found.vars } rest := (h.tail rfl).scope rfl
    have hround : At all { s with vars := found.vars, inLoop := true } rest := hrest.scope rfl
    rw [statement]
    dsimp only
    -- One case for each word that begins a statement, in the order in which they are tried.
    split
    · rename_i hlet
      refine .behind [t] (.bind (reads_letBinding _ t.pos rest hrest) fun b used _ hb _ =>
        .ok [] rfl ?_)
      obtain ⟨hinline, value, hbind, hvalue⟩ := hb
      dsimp only
      rw [hbind]
      simpa using ReadBlock.bind (.append (.of_word hlet (by decide)) hinline) hvalue
    · split
      · rename_i hif
        refine .behind [t]
          (.bind (reads_branches _ found t.pos [] (by simp [FormedArms]) rest hrest t.pos)
          fun z used _ hz _ => .ok [] rfl ?_)
        simpa using ReadBlock.choice (.of_word hif (by decide)) hz
      · split
        · rename_i hloop
          split
          · refine .behind [t] (.bind (reads_block _ found rest hround) fun body used _ hbody _ =>
              .ok [] rfl ?_)
            simpa using ReadBlock.loop none t.pos (.of_word hloop (by decide)) (by simp) hbody
          · refine .behind [t] (.bind (reads_expr _ rest hrest) fun count used hts hcount hltc =>
              ?_)
            refine .bind (reads_block _ found count.rest (hround.rest hts))
              fun body more _ hbody _ => .ok [] rfl ?_
            have hhead : Inline ([t] ++ used) := .append (.of_word hloop (by decide)) hcount.1
            simpa using ReadBlock.loop (some count.value) t.pos hhead
              (by simpa using hcount.2) hbody
        · split
          · rename_i hjump
            split
            · rename_i hinLoop
              refine .ok [t] rfl ?_
              rw [hinLoop]
              exact .jump hjump
            · exact .error
          · split
            · rename_i hreturn
              exact .ok [t] rfl (.single (.of_word hreturn (by decide)) .finish rfl)
            · split
              · rename_i hrender
                refine .behind [t]
                  (.bind (reads_renderTarget _ found t.pos rest) fun target used _ htarget _ => ?_)
                refine .ok [] rfl ?_
                obtain ⟨hnested, hfound, left, x, right, rfl, hleft, hx, hright, htargetEq⟩ :=
                  htarget
                dsimp only
                rw [htargetEq]
                exact .directive hnested hfound hrender hleft hx hright
              · split
                · rename_i hspace
                  refine .behind [t]
                    (.bind (reads_expect _ .identifier rest) fun name _ hts hname hltn => ?_)
                  obtain ⟨rfl, hnameKind⟩ := hname
                  refine .bind (reads_expect _ .lbrace name.rest) fun brace _ hnrest hbrace hltb =>
                    ?_
                  refine .bind_of fun inner hinner => ?_
                  obtain ⟨rfl, hbraceKind⟩ := hbrace
                  obtain rfl := enter_eq hinner
                  have hleft : At all s brace.rest := ((hrest.rest hts).rest hnrest).scope rfl
                  refine .bind (reads_body _ found brace.rest (hleft.scope rfl))
                    fun b used _ hb _ => .ok [] rfl ?_
                  obtain ⟨inner, close, rfl, hclose, hb⟩ := hb
                  simpa using hb.space hspace hnameKind hbraceKind hclose
                · split
                  · exact .error
                  · refine .bind (reads_chainStatement s.inLoop _ (t :: rest) (h.scope rfl))
                      fun st used _ hst _ => ?_
                    refine .ok [] rfl ?_
                    simpa using ReadBlock.single hst.1 hst.2.1 hst.2.2
termination_by (ts.length, 2)
decreasing_by all_goals exact sooner (by omega)

/-- The arms of a choice are read from their own tokens. -/
theorem reads_branches (s : Scope) (found : Found) (start : Pos) (arms : List Branch)
    (harms : FormedArms all s.inLoop arms) (ts : List Token) (h : At all s ts) (at' : Pos) :
    Reads ts (ReadChoice all s.inLoop found arms) (branches s found start arms ts at') := by
  rw [branches]
  dsimp only
  have hat : At all { s with vars := found.vars } ts := h.scope rfl
  refine .bind (reads_expr _ ts hat) fun cond used hts hcond hltc => ?_
  refine .bind (reads_block _ found cond.rest (hat.rest hts)) fun body more hcrest hbody hltb => ?_
  have hread := ReadArms.arm at' harms hcond.1 hcond.2 hbody
  split
  · exact .ok [] ‹_› (by simpa using hread.ends start)
  · rename_i t rest hr
    have hcons : body.rest.length = rest.length + 1 := by rw [hr]; rfl
    have hleft := ((h.rest hts).rest hcrest).tail hr
    split
    · rename_i helif
      have hmore :=
        reads_branches { s with vars := found.vars } body.value.2 start _ hread.formed rest
        (hleft.scope rfl) t.pos
      refine .of_eq hr (.behind [t] (.bind hmore fun z others _ hz _ => .ok [] rfl ?_))
      simpa using hread.goesOn (.of_word helif (by decide)) hz
    · split
      · rename_i helse
        refine .of_eq hr (.behind [t] (.bind (reads_block _ body.value.2 rest (hleft.scope rfl))
          fun b others _ hb _ => .ok [] rfl ?_))
        simpa using hread.otherwise (.of_word helse (by decide)) hb start
      · exact .ok [] rfl (by simpa using hread.ends start)
termination_by (ts.length, 1)
decreasing_by all_goals exact sooner (by omega)

/-- A block is read from its own tokens, between braces that match. -/
theorem reads_block (s : Scope) (found : Found) (ts : List Token) (h : At all s ts) :
    Reads ts (ReadBlock all s.inLoop true found) (block s found ts) := by
  rw [block]
  refine .bind (reads_expect s .lbrace ts) fun brace _ hts hbrace hltb =>
    .bind_of fun inner hinner => ?_
  obtain ⟨rfl, hkind⟩ := hbrace
  obtain rfl := enter_eq hinner
  refine .bind (reads_body _ found brace.rest ((h.rest hts).scope rfl)) fun b used _ hb _ =>
    .ok [] rfl ?_
  obtain ⟨inner, close, rfl, hclose, hb⟩ := hb
  simpa using hb.braces hkind hclose
termination_by (ts.length, 1)
decreasing_by all_goals exact sooner (by omega)

/-- The statements of a block are read up to its closing brace. -/
theorem reads_body (s : Scope) (found : Found) (ts : List Token) (h : At all s ts) :
    Reads ts (fun used r => ∃ (inner : List Token) (close : Token), used = inner ++ [close] ∧
      close.kind = .rbrace ∧ ReadBlock all s.inLoop s.nested found inner r) (body s found ts) := by
  obtain ⟨skipped, hskip, hinline⟩ := exists_skipSemicolons ts
  have hle := length_skipSemicolons ts
  rw [body]
  split
  · exact .error
  · rename_i t rest hr
    have hsize : (t :: rest).length ≤ ts.length := hr ▸ hle
    have hts : ts = skipped ++ t :: rest := hr ▸ hskip
    split
    · rename_i hclose
      exact .ok (skipped ++ [t]) (hts.trans (by simp)) ⟨skipped, t, rfl, hclose, .nil hinline⟩
    · split
      · exact .error
      · have hat : At all s (t :: rest) := h.rest hts
        refine .of_eq hts (.behind skipped ?_)
        refine .bind (reads_statement s found (t :: rest) hat) fun st used hused hst hlts => ?_
        refine .bind (reads_body s st.value.2 st.rest (hat.rest hused)) fun more others _ hmore _ =>
          .ok [] rfl ?_
        obtain ⟨inner, close, rfl, hclose, hmore⟩ := hmore
        have hboth := (ReadBlock.nil hinline).append (hst.append hmore)
        exact ⟨skipped ++ (used ++ inner), close, by simp, hclose, hboth⟩
termination_by (ts.length, 3)
decreasing_by all_goals exact sooner (by omega)

end

/-- The statements of a program are read from all of its tokens. -/
theorem reads_statements (s : Scope) (found : Found) (ts : List Token) (h : At all s ts)
    (hend : ∀ t ∈ ts, t.kind ≠ .endOfInput) {r : List Stmt × Found}
    (hr : statements s found ts = .ok r) :
    ReadBlock all s.inLoop s.nested found ts r := by
  obtain ⟨skipped, hskip, hinline⟩ := exists_skipSemicolons ts
  have hle := length_skipSemicolons ts
  rw [statements] at hr
  split at hr
  · rename_i hnil
    obtain rfl := Except.ok.inj hr
    rw [hnil, List.append_nil] at hskip
    exact hskip ▸ .nil hinline
  · rename_i t rest hcons
    have hsize : (t :: rest).length ≤ ts.length := hcons ▸ hle
    rw [hcons] at hskip
    split at hr
    · exact absurd ‹_› (hend t (by simp [hskip]))
    · obtain ⟨st, hst, hr⟩ := exists_of_bind hr
      obtain ⟨more, hmore, hr⟩ := exists_of_bind hr
      obtain rfl := Except.ok.inj hr
      have hat : At all s (t :: rest) := h.rest hskip
      obtain ⟨used, hused, hread⟩ := reads_statement s found (t :: rest) hat st hst
      have hlt := st.shorter
      have hall : ts = skipped ++ (used ++ st.rest) := hskip.trans (congrArg (skipped ++ ·) hused)
      have hkinds : ∀ x ∈ st.rest, x.kind ≠ .endOfInput := fun x hx => hend x (hall ▸ by simp [hx])
      have hothers := reads_statements s st.value.2 st.rest (hat.rest hused) hkinds hmore
      exact hall ▸ (ReadBlock.nil hinline).append (hread.append hothers)
termination_by ts.length

/-! ## programs -/

/-- The names of a search order are read from one line, each once. -/
theorem reads_searchNames (s : Scope) (found : List String) (ts : List Token) :
    Reads ts (fun used names => Inline used ∧ names ≠ [] ∧ (found.Nodup → names.Nodup))
      (searchNames s found ts) := by
  rw [searchNames]
  refine .bind (reads_expect s .identifier ts) fun name _ hts hname hltn => ?_
  obtain ⟨rfl, hkind⟩ := hname
  dsimp only
  generalize hnames : (if found.contains name.value.word then found else found ++
    [name.value.word]) = names
  have hall : names ≠ [] ∧ (found.Nodup → names.Nodup) := by
    rw [← hnames]
    split
    · rename_i hmem
      exact ⟨fun hnil => by simp [hnil] at hmem, id⟩
    · rename_i hmem
      refine ⟨by simp, fun h => List.nodup_append.2 ⟨h, by simp, fun x hx y hy hxy => ?_⟩⟩
      obtain rfl := List.mem_singleton.1 hy
      exact hmem (by simpa [← hxy] using hx)
  split
  · exact .ok [] ‹_› ⟨by simpa using Inline.of_kind hkind (by decide), hall⟩
  · rename_i c rest hr
    have hcons : name.rest.length = rest.length + 1 := by rw [hr]; rfl
    split
    · rename_i hcomma
      refine .of_eq hr (.behind [c] (.bind (reads_searchNames s _ rest) fun z used _ hz _ => ?_))
      refine .ok [] rfl ⟨?_, hz.2.1, ?_⟩
      · simpa using (Inline.of_kind hkind (by decide)).append
          ((Inline.of_kind hcomma (by decide)).append hz.1)
      · exact fun h => hz.2.2 (hall.2 h)
    · exact .ok [] rfl ⟨by simpa using Inline.of_kind hkind (by decide), hall⟩
termination_by ts.length

/-- The header is read from one line and names at least one namespace. -/
theorem reads_header {s : Scope} {ts rest : List Token} {names : List String}
    (h : header s ts = .ok (names, rest)) :
    names ≠ [] ∧ names.Nodup ∧ ∃ used, ts = used ++ rest ∧ Inline used := by
  unfold header at h
  split at h
  · rename_i t more
    split at h
    · rename_i hsearch
      obtain ⟨x, hx, h⟩ := exists_of_bind h
      obtain ⟨rfl, rfl⟩ := Prod.mk.inj (Except.ok.inj h)
      obtain ⟨used, hused, hinline, hne, hnodup⟩ := reads_searchNames s [] more x hx
      exact ⟨hne, hnodup .nil, t :: used, congrArg (t :: ·) hused,
        .cons (.of_word hsearch (by decide)) hinline⟩
    · split at h
      · obtain ⟨rfl, rfl⟩ := Prod.mk.inj (Except.ok.inj h)
        exact ⟨by simp, by simp, [], rfl, .nil⟩
      · cases h
  · cases h

end Parser

/-- A program that is read from tokens, of which only the last one ends the input, is well-formed.
-/
theorem Program.wellFormed_ofTokens {options : Options} {ts : List Token} {last : Token}
    {p : Program} (hlast : last.kind = .endOfInput) (hts : ∀ t ∈ ts, t.kind ≠ .endOfInput)
    (hpi : ∀ t ∈ ts, t.word = "PI" → Inline [t]) (h : ofTokens options (ts ++ [last]) = .ok p) :
    p.WellFormed ts := by
  have hsplit : Parser.splitLast (ts ++ [last]) = (ts, last) := by
    unfold Parser.splitLast
    rw [List.getLast?_concat]
    simp [hlast]
  unfold ofTokens at h
  rw [hsplit] at h
  dsimp only at h
  obtain ⟨⟨search, rest⟩, hheader, h⟩ := exists_of_bind h
  obtain ⟨⟨stmts, found⟩, hstmts, h⟩ := exists_of_bind h
  obtain rfl := Except.ok.inj h
  obtain ⟨hne, hnodup, used, hused, hinline⟩ := Parser.reads_header hheader
  obtain ⟨skipped, hskip, hskipped⟩ := Parser.exists_skipSemicolons ts
  have hall : ts = skipped ++ used ++ rest := by rw [List.append_assoc, ← hused, ← hskip]
  have hhead := hskipped.append hinline
  have hkinds : ∀ t ∈ rest, t.kind ≠ .endOfInput := fun t ht => hts t (hall ▸ by simp [ht])
  have hat : Parser.At ts { last, maxDepth := options.maxDepth, search } rest :=
    ⟨hlast, ⟨_, hall.symm⟩, hpi⟩
  have hread := Parser.reads_statements _ {} rest hat hkinds hstmts
  have hvars : found.vars = (Stmt.boundOf stmts).eraseDups := hread.vars [] rfl
  refine ⟨⟨hne, hnodup⟩, hread.formed, ⟨hvars, hvars ▸ nodup_eraseDups _⟩, ?_⟩
  have hrender : Renders false ts none found.render :=
    hall ▸ .append hhead.closed (.none hhead.render) hread.render
  obtain ⟨hnone, hsame⟩ | ⟨-, -, x, hx, hdirects⟩ := hrender
  · exact hsame ▸ hnone
  · exact hx ▸ hdirects

/-- So is a program that is read from a source. -/
theorem Program.exists_wellFormed {options : Options} {source : Bytes} {p : Program}
    (h : Program.parse options source = .ok p) :
    ∃ (ts : List Token) (last : Token), Token.scan source = .ok (ts ++ [last]) ∧
      last.kind = .endOfInput ∧ p.WellFormed ts := by
  unfold parse at h
  split at h
  · rename_i q hq
    obtain rfl := Except.ok.inj h
    obtain ⟨tokens, hscan, hq⟩ := exists_of_bind hq
    obtain ⟨ts, last, rfl, hlast, hts⟩ := Token.scan_concat hscan
    refine ⟨ts, last, hscan, hlast, wellFormed_ofTokens hlast hts (fun t ht hword => ?_) hq⟩
    have hkind : t.kind ∉ [.lparen, .rparen, .lbrace, .rbrace] := fun hkind => by
      have hlength := Token.length_bracket hscan t (List.mem_append_left _ ht) hkind
      rw [hword] at hlength
      exact absurd hlength (by decide)
    simp only [List.mem_cons, List.not_mem_nil, or_false, not_or] at hkind
    exact .single ⟨hkind.1, hkind.2.1⟩ ⟨hkind.2.2.1, hkind.2.2.2⟩ (by simp [Token.isWord, hword])
  · cases h

end EffectChain
