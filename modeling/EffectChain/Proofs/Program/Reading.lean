import EffectChain.Proofs.Plan.Nesting
import EffectChain.Proofs.Plan.Outline
import EffectChain.Proofs.Program.Spelling

/-!
# EffectChain.Proofs.Program.Reading

What the parser of expressions takes from the tokens, and what it makes of them.

A tree tells whether its loops are left from within and whether its calls are uniform
(`Stmt.Formed`, `Expr.Formed`).  Whether a chain has an `out(…)`, and where the render target
comes from, is told by the tokens: a chain is a stretch of them that no further link follows
(`ChainOf.WrittenIn`), and a directive stands outside all blocks but namespaces (`Directs`).

A parser reads a stretch of the tokens and leaves the rest of them (`Parser.Reads`).  What
an expression reads has matching parentheses and neither a brace nor a directive (`Inline`);
that is why a call reads its text and no more, and why a chain is followed by no further
link.  The productions are proved together, by induction on the tokens that are left.

* `Program.WellFormed` — programs that are well-formed, against the tokens they were read from;
* `Parser.reads_call`, `Parser.reads_arguments` — a call has the text of a call, and
  arguments of one kind;
* `Parser.reads_chainTail` — the links of a chain stand in the tokens as they stand in it;
* `Parser.reads_expr` — an expression that is read is well-formed all the way down.
-/

namespace EffectChain

/-! ## brackets -/

/-- Tokens between which the brackets of one kind match. -/
inductive Matched (left right : TokenKind) : List Token → Prop
  | nil : Matched left right []
  | token {t : Token} {ts : List Token} (hleft : t.kind ≠ left) (hright : t.kind ≠ right)
      (h : Matched left right ts) : Matched left right (t :: ts)
  | group {l r : Token} {inner ts : List Token} (hl : l.kind = left) (hr : r.kind = right)
      (hinner : Matched left right inner) (h : Matched left right ts) :
      Matched left right (l :: inner ++ r :: ts)

namespace Matched

variable {left right : TokenKind} {as bs : List Token}

/-- Matched texts one after the other are matched. -/
theorem append (ha : Matched left right as) (hb : Matched left right bs) :
    Matched left right (as ++ bs) := by
  induction ha with
  | nil => exact hb
  | token hleft hright h ih => exact .token hleft hright ih
  | group hl hr hinner h ihinner ih =>
    rw [List.append_assoc]
    exact .group hl hr hinner ih

/-- A text without brackets is matched. -/
theorem of_forall (h : ∀ t ∈ as, t.kind ≠ left ∧ t.kind ≠ right) : Matched left right as := by
  induction as with
  | nil => exact .nil
  | cons t as ih =>
    obtain ⟨ht, has⟩ := List.forall_mem_cons.1 h
    exact .token ht.1 ht.2 (ih has)

end Matched

/-! ## chains -/

/-- The names after the first one of a path, each behind a dot. -/
inductive PathText : List Token → Prop
  | nil : PathText []
  | name {dot name : Token} {more : List Token} (hdot : dot.kind = .dot)
      (hname : name.kind = .identifier)
      (h : PathText more) : PathText (dot :: name :: more)

/-- What stands between parentheses, with them. -/
inductive ParenText : List Token → Prop
  | mk {left right : Token} {inner : List Token} (hleft : left.kind = .lparen)
      (hright : right.kind = .rparen)
      (h : Matched .lparen .rparen inner) : ParenText (left :: inner ++ [right])

/-- The text of a call: a path whose last name is called, or the word `from`, and what
stands between parentheses. -/
inductive CallText : List Token → Call → Prop
  | named {t : Token} {path args : List Token} {c : Call} (ht : t.kind = .identifier)
      (hpath : PathText path)
      (hargs : ParenText args)
        (hname : c.name = ((t :: path).getLast (List.cons_ne_nil t path)).word)
      (hpos : c.pos = t.pos) : CallText (t :: path ++ args) c
  | pinned {t : Token} {args : List Token} {c : Call} (ht : t.isWord "from")
      (hargs : ParenText args)
      (hpos : c.pos = t.pos) : CallText (t :: args) c

/-- The text starts with `out(`. -/
def StartsOut : List Token → Prop
  | t :: left :: _ => t.word = "out" ∧ left.kind = .lparen
  | _ => False

/-- The links of a chain, each behind a dot: calls, and `out(…)` as the last one if it is there. -/
inductive LinksText : List Token → List Call → Bool → Prop
  | nil : LinksText [] [] false
  | out {dot t : Token} {text : List Token} (hdot : dot.kind = .dot) (ht : t.kind = .identifier ∧
      t.word = "out")
      (h : ParenText text) : LinksText (dot :: t :: text) [] true
  | call {dot : Token} {text more : List Token} {c : Call} {cs : List Call} {out : Bool}
      (hdot : dot.kind = .dot)
      (htext : CallText text c) (hout : ¬ StartsOut text) (h : LinksText more cs out) :
      LinksText (dot :: text ++ more) (c :: cs) out

/-- The text of a chain: its variable or its first call, and its links. -/
inductive ChainText : List Token → Chain → Prop
  | based {t : Token} {links : List Token} {ch : Chain} (hbase : ch.base = some t.word)
      (hpos : ch.pos = t.pos)
      (h : LinksText links ch.calls ch.out.isSome) : ChainText (t :: links) ch
  | called {text links : List Token} {ch : Chain} {c : Call} {cs : List Call}
      (hbase : ch.base = none)
      (hcalls : ch.calls = c :: cs) (hpos : ch.pos = c.pos) (htext : CallText text c)
      (h : LinksText links cs ch.out.isSome) : ChainText (text ++ links) ch

/-- The chain is a stretch of the tokens that no further link follows. -/
def ChainOf.WrittenIn (ts : List Token) (ch : Chain) : Prop :=
  ∃ before text after, ts = before ++ text ++ after ∧ ChainText text ch ∧ ∀ t ∈ after.head?,
    t.kind ≠ .dot

/-! ## trees -/

/-- A call has positional or named arguments, and no name is given twice. -/
structure CallOf.Uniform (c : Call) : Prop where
  uniform : c.args = [] ∨ c.kwargs = []
  distinct : (c.kwargs.map (·.name)).Nodup

/-- An expression without parts. -/
def Expr.IsLeaf : Expr → Prop
  | .call _ | .chain _ => False
  | _ => True

/-- An expression of a source with the tokens `ts`, well-formed all the way down.  A call
alone is a chain of one call. -/
inductive Expr.Formed (ts : List Token) : Expr → Prop
  | leaf {e : Expr} (h : e.IsLeaf) : Formed ts e
  | call {c : Call} (hcall : c.Uniform) (hwritten : ∀ e ∈ c.written, Formed ts e)
      (htext : ChainOf.WrittenIn ts { calls := [c], pos := c.pos }) : Formed ts (.call c)
  | chain {ch : Chain} (hstart : ch.base.isSome ∨ ch.calls ≠ []) (hcalls : ∀ c ∈ ch.calls,
      c.Uniform)
      (hwritten : ∀ c ∈ ch.calls, ∀ e ∈ c.written, Formed ts e) (hout : ∀ e ∈ ch.out, Formed ts e)
      (htext : ch.WrittenIn ts) : Formed ts (.chain ch)

/-- A statement, inside a loop or not, that is well-formed all the way down. -/
inductive Stmt.Formed (ts : List Token) : Bool → Stmt → Prop
  | bind {inLoop : Bool} {name : String} {value : Expr} {pos : Pos} (h : value.Formed ts) :
      Formed ts inLoop (.bind name value pos)
  | run {inLoop : Bool} {ch : Chain} {pos : Pos} (h : (Expr.chain ch).Formed ts) : Formed ts inLoop
      (.run ch pos)
  | choose {inLoop : Bool} {arms : List Branch} {otherwise : Option (List Stmt)} {pos : Pos}
      (hconds : ∀ arm ∈ arms, arm.cond.Formed ts)
      (harms : ∀ arm ∈ arms, ∀ st ∈ arm.body, Formed ts inLoop st)
      (hother : ∀ body ∈ otherwise, ∀ st ∈ body, Formed ts inLoop st) :
      Formed ts inLoop (.choose arms otherwise pos)
  | repeated {inLoop : Bool} {count : Option Expr} {body : List Stmt} {pos : Pos}
      (hcount : ∀ e ∈ count, e.Formed ts) (hbody : ∀ st ∈ body, Formed ts true st) :
      Formed ts inLoop (.repeated count body pos)
  | leaveLoop {pos : Pos} : Formed ts true (.leaveLoop pos)
  | nextRound {pos : Pos} : Formed ts true (.nextRound pos)
  | finish {inLoop : Bool} {pos : Pos} : Formed ts inLoop (.finish pos)

@[simp] theorem Stmt.boundOf_append (as bs : List Stmt) :
    boundOf (as ++ bs) = boundOf as ++ boundOf bs := by
  induction as with
  | nil => simp [boundOf]
  | cons st as ih => simp [boundOf, ih]

@[simp] theorem Stmt.boundOfArms_append (as bs : List Branch) :
    boundOfArms (as ++ bs) = boundOfArms as ++ boundOfArms bs := by
  induction as with
  | nil => simp [boundOfArms]
  | cons arm as ih => simp [boundOfArms, ih]

/-! ## programs -/

/-- The tokens before a place that is outside all blocks but namespaces. -/
inductive Outside : List Token → Prop
  | nil : Outside []
  | closed {ts more : List Token} (hts : Matched .lbrace .rbrace ts) (h : Outside more) : Outside
      (ts ++ more)
  | space {word name brace : Token} {more : List Token} (hword : word.isWord "namespace")
      (hname : name.kind = .identifier) (hbrace : brace.kind = .lbrace) (h : Outside more) :
      Outside (word :: name :: brace :: more)

/-- The render target that tokens direct: none, or the one of their only directive, which is
outside all blocks but namespaces. -/
inductive Directs : List Token → Option (Surface × Pos) → Prop
  | none {ts : List Token} (h : ∀ t ∈ ts, t.isWord "render" = false) : Directs ts none
  | one {before after : List Token} {word left target right : Token} (hbefore : Outside before)
      (hword : word.isWord "render") (hleft : left.kind = .lparen)
        (htarget : target.kind = .surface)
      (hright : right.kind = .rparen) (honly : ∀ t ∈ before ++ after, t.isWord "render" = false) :
      Directs (before ++ word :: left :: target :: right :: after)
        (some (Parser.surfaceOf target, target.pos))

/-- A program that is well-formed, read from the tokens `ts`. -/
structure Program.WellFormed (ts : List Token) (p : Program) : Prop where
  search : p.search ≠ [] ∧ p.search.Nodup
  statements : ∀ st ∈ p.statements, st.Formed ts false
  /-- The bound names without repetition, in the order of their first binding. -/
  vars : p.vars = (Stmt.boundOf p.statements).eraseDups ∧ p.vars.Nodup
  render : Directs ts p.render

/-! ## what an expression takes -/

/-- Tokens that an expression can take: parentheses match in them, and there is neither a
brace nor a directive. -/
structure Inline (ts : List Token) : Prop where
  matched : Matched .lparen .rparen ts
  braces : ∀ t ∈ ts, t.kind ≠ .lbrace ∧ t.kind ≠ .rbrace
  render : ∀ t ∈ ts, t.isWord "render" = false

namespace Inline

variable {as bs : List Token}

theorem nil : Inline [] := ⟨.nil, by simp, by simp⟩

theorem append (ha : Inline as) (hb : Inline bs) : Inline (as ++ bs) :=
  ⟨ha.matched.append hb.matched, List.forall_mem_append.2 ⟨ha.braces, hb.braces⟩,
    List.forall_mem_append.2 ⟨ha.render, hb.render⟩⟩

/-- A token that is no bracket and no directive. -/
theorem single {t : Token} (hparen : t.kind ≠ .lparen ∧ t.kind ≠ .rparen)
    (hbrace : t.kind ≠ .lbrace ∧ t.kind ≠ .rbrace) (hrender : t.isWord "render" = false) :
    Inline [t] :=
  ⟨.token hparen.1 hparen.2 .nil, by simpa using hbrace, by simpa using hrender⟩

/-- A token that is no bracket and no keyword stands within a line. -/
theorem of_kind {t : Token} {kind : TokenKind} (h : t.kind = kind)
    (hkind : kind ∉ [.lparen, .rparen, .lbrace, .rbrace, .keyword]) : Inline [t] := by
  simp only [List.mem_cons, List.not_mem_nil, or_false, not_or] at hkind
  subst h
  refine single ⟨hkind.1, hkind.2.1⟩ ⟨hkind.2.2.1, hkind.2.2.2.1⟩ ?_
  simp [Token.isWord, hkind.2.2.2.2]

/-- A word other than `render` stands within a line. -/
theorem of_word {t : Token} {w : String} (h : t.isWord w = true) (hw : w ≠ "render") :
    Inline [t] := by
  simp only [Token.isWord, Bool.and_eq_true, decide_eq_true_eq] at h
  obtain ⟨hkind, hword⟩ := h
  refine single (by simp [hkind]) (by simp [hkind]) ?_
  simp [Token.isWord, hword, hw]

/-- A token of one of two such kinds stands within a line. -/
theorem of_or {t : Token} {k k' : TokenKind}
    (h : (decide (t.kind = k) || decide (t.kind = k')) = true)
    (hk : k ∉ [.lparen, .rparen, .lbrace, .rbrace, .keyword])
    (hk' : k' ∉ [.lparen, .rparen, .lbrace, .rbrace, .keyword]) : Inline [t] := by
  rw [Bool.or_eq_true, decide_eq_true_eq, decide_eq_true_eq] at h
  exact h.elim (of_kind · hk) (of_kind · hk')

/-- A text within a line stays so in parentheses. -/
theorem parens {left right : Token} (hl : left.kind = .lparen) (hr : right.kind = .rparen)
    (h : Inline as) :
    Inline (left :: as ++ [right]) := by
  refine ⟨.group hl hr h.matched .nil, ?_, ?_⟩
  · simpa [hl, hr, or_imp, forall_and] using h.braces
  · simpa [hl, hr, or_imp, forall_and, Token.isWord] using h.render

theorem cons {t : Token} (ht : Inline [t]) (h : Inline as) : Inline (t :: as) := ht.append h

end Inline

theorem PathText.inline {ts : List Token} (h : PathText ts) : Inline ts := by
  induction h with
  | nil => exact .nil
  | name hdot hname h ih =>
      exact .cons (.of_kind hdot (by decide)) (.cons (.of_kind hname (by decide)) ih)

namespace Parser

/-! ## what a parser reads -/

/-- The tokens that are read, with the value, have a property. -/
def Reads {α : Type} {n : Nat} (ts : List Token) (p : List Token → α → Prop)
    (r : Except SyntaxError (Parsed α n)) : Prop :=
  ∀ x, r = .ok x → ∃ used, ts = used ++ x.rest ∧ p used x.value

namespace Reads

variable {α β γ : Type} {m n : Nat} {ts : List Token} {p : List Token → α → Prop}
    {q : List Token → β → Prop}

/-- A parser that succeeds reads the text it has used up. -/
theorem ok {x : Parsed α n} (used : List Token) (h : ts = used ++ x.rest) (hp : p used x.value) :
    Reads ts p (.ok x) := by
  intro y hy
  obtain rfl := Except.ok.inj hy
  exact ⟨used, h, hp⟩

theorem error {e : SyntaxError} : Reads (n := n) ts p (.error e) := nofun

/-- Readings one after the other read the texts one after the other. -/
theorem bind {r : Except SyntaxError (Parsed α m)}
    {f : Parsed α m → Except SyntaxError (Parsed β n)} (h : Reads ts p r)
    (hf : ∀ x used, ts = used ++ x.rest → p used x.value → x.rest.length < m →
      Reads x.rest (fun more v => q (used ++ more) v) (f x)) :
    Reads ts q (r >>= f) := by
  cases r with
  | error e => exact error
  | ok x =>
    obtain ⟨used, rfl, hp⟩ := h x rfl
    intro y hy
    obtain ⟨more, hmore, hq⟩ := hf x used rfl hp x.shorter y hy
    exact ⟨used ++ more, by rw [hmore, List.append_assoc], hq⟩

/-- A step that reads nothing does not change what is read. -/
theorem bind_of {r : Except SyntaxError γ} {f : γ → Except SyntaxError (Parsed β n)}
    (hf : ∀ x, r = .ok x → Reads ts q (f x)) : Reads ts q (r >>= f) := by
  cases r with
  | error e => exact error
  | ok x => exact hf x rfl

theorem of_eq {ts' : List Token} {r : Except SyntaxError (Parsed α n)} (hts : ts = ts')
    (h : Reads ts' p r) :
    Reads ts p r := hts ▸ h

theorem mono {p' : List Token → α → Prop} {r : Except SyntaxError (Parsed α n)} (h : Reads ts p r)
    (hp : ∀ used v, p used v → p' used v) : Reads ts p' r := fun x hx =>
  (h x hx).imp fun _ hused => hused.imp_right (hp _ _)

/-- Tokens that were read before belong to the stretch. -/
theorem behind (before : List Token) {r : Except SyntaxError (Parsed α n)}
    (h : Reads ts (fun used v => p (before ++ used) v) r) : Reads (before ++ ts) p r := by
  intro x hx
  obtain ⟨used, rfl, hp⟩ := h x hx
  exact ⟨before ++ used, (List.append_assoc ..).symm, hp⟩

end Reads

open Scope

/-- A token that is expected is the one that is read. -/
theorem reads_expect (s : Scope) (kind : TokenKind) (ts : List Token) :
    Reads ts (fun used t => used = [t] ∧ t.kind = kind) (s.expect kind ts) := by
  unfold expect
  split
  · exact .error
  · rename_i t rest
    split
    · exact .ok [t] rfl ⟨rfl, ‹_›⟩
    · exact .error

/-- A token that is seen and does not end the input is there. -/
theorem of_peek {s : Scope} (hs : s.last.kind = .endOfInput) {ts : List Token} {kind : TokenKind}
    (h : (s.peek ts).kind = kind) (hkind : kind ≠ .endOfInput) : ts = s.peek ts :: ts.drop 1 := by
  cases ts with
  | nil => exact absurd (h.symm.trans hs) hkind
  | cons t rest => rfl

/-- Two tokens that are seen, neither of them the end of input, stand at the front of the text. -/
theorem of_peekSecond {s : Scope} (hs : s.last.kind = .endOfInput) {ts : List Token}
    {kind : TokenKind} (h : (s.peekSecond ts).kind = kind) (hkind : kind ≠ .endOfInput) :
    ts = s.peek ts :: s.peekSecond ts :: ts.drop 2 := by
  match ts, h with
  | [], h | [_], h => exact absurd (h.symm.trans hs) hkind
  | t :: t' :: rest, _ => rfl

/-- Going deeper changes the depth only. -/
theorem enter_eq {s inner : Scope} {pos : Pos} (h : s.enter pos = .ok inner) :
    inner = { s with depth := s.depth + 1 } := by
  unfold enter at h
  split at h
  · cases h
  · exact (Except.ok.inj h).symm

/-- A path is read with its names, of which the last one is split off. -/
theorem exists_dottedPath (first : Token) (ts : List Token) :
    ∃ path, ts = path ++ (dottedPath ts).2 ∧ PathText path ∧
      (splitPath first.word (dottedPath ts).1).1 =
        ((first :: path).getLast (List.cons_ne_nil first path)).word := by
  fun_induction dottedPath ts generalizing first with
  | case1 d t rest h ih =>
    simp only [Bool.and_eq_true, decide_eq_true_iff] at h
    obtain ⟨path, hpath, htext, hname⟩ := ih t
    refine ⟨d :: t :: path, by rw [List.cons_append, List.cons_append, ← hpath],
      .name h.1 h.2 htext, ?_⟩
    rw [splitPath] at hname ⊢
    simpa using hname
  | case2 => exact ⟨[], rfl, .nil, rfl⟩
  | case3 => exact ⟨[], rfl, .nil, rfl⟩

/-- What an operator makes of its operands is a leaf of the tree. -/
theorem isLeaf_fold {op : Token} {left right e : Expr} (h : fold op left right = .ok e) :
    e.IsLeaf := by
  unfold fold at h
  split at h
  · dsimp only at h
    split at h
    case h_4 =>
      split at h
      · cases h
      · exact Except.ok.inj h ▸ trivial
    all_goals exact Except.ok.inj h ▸ trivial
  · cases h

/-- What a sign makes of its operand is a leaf of the tree. -/
theorem isLeaf_applySign {op : Token} {operand e : Expr} (h : applySign op operand = .ok e) :
    e.IsLeaf := by
  unfold applySign at h
  split at h
  · split at h <;> exact Except.ok.inj h ▸ trivial
  · cases h

/-! ## what is well-formed about it -/

/-- Where a parser is: the tokens that are left are the last ones of all. -/
structure At (all : List Token) (s : Scope) (ts : List Token) : Prop where
  last : s.last.kind = .endOfInput
  left : ts <:+ all
  /-- The word that is read as a number after `Math` is no bracket. -/
  pi : ∀ t ∈ all, t.word = "PI" → Inline [t]

namespace At

variable {all ts used more : List Token} {s s' : Scope}

theorem rest (h : At all s ts) (hts : ts = used ++ more) : At all s more :=
  ⟨h.last, (hts ▸ List.suffix_append used more).trans h.left, h.pi⟩

theorem tail {t : Token} (h : At all s ts) (hts : ts = t :: more) : At all s more :=
  h.rest (hts.trans List.singleton_append.symm)

theorem of_eq {ts' : List Token} (h : At all s ts) (hts : ts = ts') : At all s ts' := hts ▸ h

theorem scope (h : At all s ts) (hs : s'.last = s.last) : At all s' ts :=
  ⟨hs ▸ h.last, h.left, h.pi⟩

end At

/-- What is written in a call is well-formed, and so is the call. -/
def FormedCall (all : List Token) (c : Call) : Prop := c.Uniform ∧ ∀ e ∈ c.written, e.Formed all

/-- The text of a call's arguments, with what is well-formed about the call. -/
def ReadCall (all : List Token) (pos : Pos) (used : List Token) (c : Call) : Prop :=
  ParenText used ∧ Inline used ∧ FormedCall all c ∧ c.pos = pos

/-- The same with what stands before the parentheses. -/
def ReadNamed (all head used : List Token) (c : Call) : Prop :=
  CallText (head ++ used) c ∧ Inline (head ++ used) ∧ FormedCall all c

/-- `from(…)` is a call. -/
theorem reads_pinned {all ts : List Token} {n : Nat} {t : Token}
    {r : Except SyntaxError (Parsed Call n)} (ht : t.isWord "from")
    (h : Reads ts (ReadCall all t.pos) r) : Reads ts (ReadNamed all [t]) r := by
  refine h.mono fun used c hc => ?_
  obtain ⟨hparen, hinline, hformed, hpos⟩ := hc
  exact ⟨.pinned ht hparen hpos, .cons (.of_word ht (by decide)) hinline, hformed⟩

/-- A call is of the last name of a path. -/
theorem reads_qualified {all ts path : List Token} {n : Nat} {t : Token} {name : String}
    {r : Except SyntaxError (Parsed Call n)} (ht : t.kind = .identifier) (hpath : PathText path)
    (hname : name = ((t :: path).getLast (List.cons_ne_nil t path)).word)
    (h : Reads ts (fun used c => ReadCall all t.pos used c ∧ c.name = name) r) :
    Reads ts (ReadNamed all (t :: path)) r := by
  refine h.mono fun used c hc => ?_
  obtain ⟨⟨hparen, hinline, hformed, hpos⟩, hcname⟩ := hc
  refine ⟨.named ht hpath hparen (hcname.trans hname) hpos, ?_, hformed⟩
  exact (Inline.cons (.of_kind ht (by decide)) hpath.inline).append hinline

/-- An expression is well-formed, and what it takes is inline. -/
def ReadsExpr {n : Nat} (all ts : List Token) (r : Except SyntaxError (Parsed Expr n)) : Prop :=
  Reads ts (fun used e => Inline used ∧ e.Formed all) r

/-- Arguments so far: of one kind, and well-formed. -/
structure FormedArgs (all : List Token) (args : List Expr) (kwargs : List Keyword) : Prop where
  uniform : args = [] ∨ kwargs = []
  distinct : (kwargs.map (·.name)).Nodup
  args : ∀ e ∈ args, e.Formed all
  kwargs : ∀ k ∈ kwargs, k.value.Formed all

theorem FormedArgs.positional {all : List Token} {args : List Expr} {kwargs : List Keyword}
    (h : FormedArgs all args kwargs) (hempty : kwargs = []) {e : Expr} (he : e.Formed all) :
    FormedArgs all (args ++ [e]) kwargs :=
  ⟨.inr hempty, h.distinct, List.forall_mem_append.2 ⟨h.args, List.forall_mem_singleton.2 he⟩,
    h.kwargs⟩

/-- One more argument by a new name keeps the arguments well-formed. -/
theorem FormedArgs.named {all : List Token} {args : List Expr} {kwargs : List Keyword}
    (h : FormedArgs all args kwargs) (hempty : args = []) {name : String}
    (hnew : ∀ k ∈ kwargs, k.name ≠ name) {e : Expr} (he : e.Formed all) (pos : Pos) :
    FormedArgs all args (kwargs ++ [⟨name, e, pos⟩]) := by
  refine ⟨.inl hempty, ?_, h.args,
    List.forall_mem_append.2 ⟨h.kwargs, List.forall_mem_singleton.2 he⟩⟩
  rw [List.map_append, List.nodup_append]
  refine ⟨h.distinct, by simp, ?_⟩
  simpa using hnew

/-- What a chain is extended with: the links that are read, behind which no other one follows. -/
structure ReadTail (all ts : List Token) (ch : Chain) (used : List Token) (ch' : Chain) : Prop where
  inline : Inline used
  links : ∃ cs out, ch' = { ch with calls := ch.calls ++ cs, out } ∧ LinksText used cs out.isSome ∧
    (∀ c ∈ cs, FormedCall all c) ∧ ∀ e ∈ out, e.Formed all
  stops : ∀ after, ts = used ++ after → ∀ t ∈ after.head?, t.kind ≠ .dot

theorem ReadsExpr.leaf {all ts : List Token} {n : Nat} {x : Parsed Expr n} (used : List Token)
    (h : ts = used ++ x.rest) (hused : Inline used) (hx : x.value.IsLeaf) :
    ReadsExpr all ts (.ok x) :=
  .ok used h ⟨hused, .leaf hx⟩

/-- An operator behind an operand, the next operand, and what follows the two. -/
theorem ReadsExpr.operator {all more : List Token} {op : Token} {left : Expr} {m n : Nat}
    {k : Parsed Expr m → Nat} {operand : Except SyntaxError (Parsed Expr m)}
    {others : Expr → (r : Parsed Expr m) → Except SyntaxError (Parsed Expr (k r))}
    {hlt : ∀ r, ∀ z : Parsed Expr (k r), z.rest.length < n} (hop : Inline [op])
    (hoperand : ReadsExpr all more operand)
    (hothers : ∀ r used v, more = used ++ r.rest → v.IsLeaf → ReadsExpr all r.rest (others v r)) :
    ReadsExpr all (op :: more) (do
      let r ← operand
      let v ← fold op left r.value
      let z ← others v r
      return ⟨z.value, z.rest, hlt r z⟩) := by
  refine .behind [op] (.bind hoperand fun r used hts hr _ => .bind_of fun v hv => ?_)
  refine .bind (hothers r used v hts (isLeaf_fold hv)) fun z more _ hz _ => .ok [] rfl ⟨?_, hz.2⟩
  simpa using hop.append (hr.1.append hz.1)

/-- A call, and what stands behind it. -/
theorem ReadsExpr.called {all head ts : List Token} {m n : Nat} {k : Parsed Call m → Nat}
    {call : Except SyntaxError (Parsed Call m)}
    {others : (c : Parsed Call m) → Except SyntaxError (Parsed Expr (k c))}
    {hlt : ∀ c, ∀ e : Parsed Expr (k c), e.rest.length < n}
    (hcall : Reads ts (ReadNamed all head) call)
    (hothers : ∀ c used, ts = used ++ c.rest → ReadNamed all head used c.value →
      ReadsExpr all c.rest (others c)) :
    ReadsExpr all (head ++ ts) (do
      let c ← call
      let e ← others c
      return ⟨e.value, e.rest, hlt c e⟩) := by
  refine .behind head (.bind hcall fun c used hts hc _ => ?_)
  refine .bind (hothers c used hts hc) fun e more _ he _ => .ok [] rfl ⟨?_, he.2⟩
  simpa using hc.2.1.append he.1

theorem notDot_of_peek {s : Scope} {ts : List Token} (h : (s.peek ts).kind ≠ .dot) :
    ∀ t ∈ ts.head?, t.kind ≠ .dot := by
  cases ts with
  | nil => simp
  | cons t ts => simpa [peek] using h

namespace ReadTail

variable {all ts used : List Token} {ch ch' : Chain} {dot : Token}

/-- Nothing is read where no dot follows. -/
theorem stop (hch : ch.out = none) (hts : ∀ t ∈ ts.head?, t.kind ≠ .dot) :
    ReadTail all ts ch [] ch := by
  refine ⟨.nil, ⟨[], none, by rw [List.append_nil, ← hch], .nil, by simp, by simp⟩, ?_⟩
  rintro after rfl
  exact hts

/-- One more call, and what follows it. -/
theorem link {text ts' : List Token} {c : Call} (hdot : dot.kind = .dot) (hts : ts = text ++ ts')
    (htext : CallText text c) (hout : ¬ StartsOut text) (hinline : Inline text)
    (hc : FormedCall all c) (h : ReadTail all ts' { ch with calls := ch.calls ++ [c] } used ch') :
    ReadTail all (dot :: ts) ch (dot :: text ++ used) ch' := by
  obtain ⟨cs, out, rfl, hlinks, hcs, hformed⟩ := h.links
  refine ⟨(Inline.cons (.of_kind hdot (by decide)) hinline).append h.inline, ?_,
    fun after hafter => ?_⟩
  · exact ⟨c :: cs, out, by simp, .call hdot htext hout hlinks, List.forall_mem_cons.2 ⟨hc, hcs⟩,
      hformed⟩
  · refine h.stops after (@List.append_cancel_left _ text _ _ ?_)
    rw [← hts, ← List.append_assoc]
    exact (List.cons.inj hafter).2

/-- `out(…)`, which nothing follows. -/
theorem out {t left close : Token} {inner more : List Token} {e : Expr} (hdot : dot.kind = .dot)
    (hts : ts = t :: (left :: inner ++ [close]) ++ more)
    (ht : t.kind = .identifier ∧ t.word = "out") (hleft : left.kind = .lparen)
    (hinner : Inline inner) (hclose : close.kind = .rparen) (he : e.Formed all)
    (hmore : ∀ t ∈ more.head?, t.kind ≠ .dot) :
    ReadTail all (dot :: ts) ch (dot :: t :: (left :: inner ++ [close]))
      { ch with out := some e } := by
  have hinline : Inline (dot :: t :: (left :: inner ++ [close])) :=
    .cons (.of_kind hdot (by decide))
      (.cons (.of_kind ht.1 (by decide)) (.parens hleft hclose hinner))
  have htext := LinksText.out hdot ht (.mk hleft hclose hinner.matched)
  refine ⟨hinline, ⟨[], some e, by rw [List.append_nil], htext, by simp, by simpa using he⟩,
    fun after hafter => ?_⟩
  subst hts
  exact List.append_cancel_left (List.cons.inj hafter).2 ▸ hmore

/-- A call behind a dot that is not `out(`, and what it is extended with. -/
theorem reads_link {head more : List Token} {m n : Nat} {k : Parsed Call m → Nat}
    {call : Except SyntaxError (Parsed Call m)}
    {others : (c : Parsed Call m) → Except SyntaxError (Parsed Chain (k c))}
    {hlt : ∀ c, ∀ z : Parsed Chain (k c), z.rest.length < n} (hdot : dot.kind = .dot)
    (hts : ts = head ++ more) (hcall : Reads more (ReadNamed all head) call)
    (hout : ∀ text after, ts = text ++ after → ¬ StartsOut text)
    (hothers : ∀ c used, more = used ++ c.rest →
      Reads c.rest (ReadTail all c.rest { ch with calls := ch.calls ++ [c.value] }) (others c)) :
    Reads (dot :: ts) (ReadTail all (dot :: ts) ch) (do
      let c ← call
      let z ← others c
      return ⟨z.value, z.rest, hlt c z⟩) := by
  refine .of_eq (congrArg (dot :: ·) hts)
    (.behind (dot :: head) (.bind hcall fun c used hused hc _ => ?_))
  obtain ⟨htext, hinline, hformed⟩ := hc
  refine .bind (hothers c used hused) fun z others _ hz _ => .ok [] rfl ?_
  have hread : ts = head ++ used ++ c.rest := by rw [hts, hused, List.append_assoc]
  have hlink := hz.link hdot hread htext (hout _ _ hread) hinline hformed
  simpa using hlink

end ReadTail

/-- What begins as the end of a chain begins with the word `out` and a parenthesis. -/
theorem of_startsOut {s : Scope} {t : Token} {text rest after : List Token} (h : StartsOut text)
    (hts : t :: rest = text ++ after) : t.word = "out" ∧ (s.peek rest).kind = .lparen := by
  match text, h with
  | t' :: left :: more, h =>
    obtain ⟨rfl, rfl⟩ := List.cons.inj hts
    exact h

/-- A call alone is a chain of one call. -/
theorem formed_call {all text ts : List Token} {c : Call} (hleft : text ++ ts <:+ all)
    (htext : CallText text c) (hc : FormedCall all c) (hdot : ∀ t ∈ ts.head?, t.kind ≠ .dot) :
    (Expr.call c).Formed all := by
  obtain ⟨before, hall⟩ := hleft
  refine .call hc.1 hc.2 ⟨before, text, ts, by rw [← hall, List.append_assoc], ?_, hdot⟩
  have hchain : ChainText (text ++ []) { calls := [c], pos := c.pos } :=
    .called rfl rfl rfl htext .nil
  rwa [List.append_nil] at hchain

/-- A call with what it is extended with. -/
theorem formed_called {all text ts used : List Token} {c : Call} {ch : Chain}
    (hleft : text ++ ts <:+ all) (htext : CallText text c) (hc : FormedCall all c)
    (htail : ReadTail all ts { calls := [c], pos := c.pos } used ch) {after : List Token}
    (hts : ts = used ++ after) : (Expr.chain ch).Formed all := by
  obtain ⟨before, hall⟩ := hleft
  obtain ⟨cs, out, rfl, hlinks, hcs, hout⟩ := htail.links
  have hcalls : ∀ x ∈ [c] ++ cs, FormedCall all x := List.forall_mem_cons.2 ⟨hc, hcs⟩
  refine .chain (.inr (by simp)) (fun x hx => (hcalls x hx).1) (fun x hx => (hcalls x hx).2) hout ?_
  refine ⟨before, text ++ used, after, ?_, .called rfl rfl rfl htext hlinks, htail.stops after hts⟩
  rw [← hall, hts]
  simp only [List.append_assoc]

/-- A variable with what it is extended with. -/
theorem formed_based {all ts used : List Token} {t : Token} {ch : Chain} (hleft : t :: ts <:+ all)
    (htail : ReadTail all ts { base := some t.word, pos := t.pos } used ch) {after : List Token}
    (hts : ts = used ++ after) : (Expr.chain ch).Formed all := by
  obtain ⟨before, hall⟩ := hleft
  obtain ⟨cs, out, rfl, hlinks, hcs, hout⟩ := htail.links
  have hcalls : ∀ x ∈ [] ++ cs, FormedCall all x := hcs
  refine .chain (.inl rfl) (fun x hx => (hcalls x hx).1) (fun x hx => (hcalls x hx).2) hout ?_
  refine ⟨before, t :: used, after, ?_, .based rfl rfl (by simpa using hlinks),
    htail.stops after hts⟩
  rw [← hall, hts]
  simp only [List.append_assoc, List.cons_append]

/-! ## the productions -/

variable {all : List Token}

mutual

/-- What is read as an expression is well-formed. -/
theorem reads_expr (s : Scope) (ts : List Token) (h : At all s ts) :
    ReadsExpr all ts (expr s ts) := by
  rw [expr]
  exact .bind_of fun inner hinner => reads_additive inner ts (h.scope (enter_eq hinner ▸ rfl))
termination_by (ts.length, 9)
decreasing_by exact Prod.Lex.right _ (by decide)

/-- What is read as a sum is well-formed. -/
theorem reads_additive (s : Scope) (ts : List Token) (h : At all s ts) :
    ReadsExpr all ts (additive s ts) := by
  rw [additive]
  refine .bind (reads_multiplicative s ts h) fun l used hts hl hltl => ?_
  refine .bind (reads_sums s l.value hl.2 l.rest (h.rest hts)) fun r more _ hr _ =>
    .ok [] rfl ⟨?_, hr.2⟩
  simpa using hl.1.append hr.1
termination_by (ts.length, 8)
decreasing_by all_goals exact sooner (by omega)

/-- What is read behind a sum is well-formed. -/
theorem reads_sums (s : Scope) (left : Expr) (hleft : left.Formed all) (ts : List Token)
    (h : At all s ts) : ReadsExpr all ts (sums s left ts) := by
  match ts, h with
  | [], h =>
    rw [sums]
    exact .ok [] rfl ⟨.nil, hleft⟩
  | op :: more, h =>
    have hcons : (op :: more).length = more.length + 1 := rfl
    have hmore := h.tail rfl
    rw [sums]
    split
    · have hop := Inline.of_or ‹_› (by decide) (by decide)
      refine .operator hop (reads_multiplicative s more hmore) fun r used v hts hv => ?_
      have hlt := r.shorter
      exact reads_sums s v (.leaf hv) r.rest (hmore.rest hts)
    · exact .ok [] rfl ⟨.nil, hleft⟩
termination_by (ts.length, 0)
decreasing_by all_goals exact sooner (by omega)

/-- What is read as a product is well-formed. -/
theorem reads_multiplicative (s : Scope) (ts : List Token) (h : At all s ts) :
    ReadsExpr all ts (multiplicative s ts) := by
  rw [multiplicative]
  refine .bind (reads_unary s ts h) fun l used hts hl hltl => ?_
  refine .bind (reads_products s l.value hl.2 l.rest (h.rest hts)) fun r more _ hr _ =>
    .ok [] rfl ⟨?_, hr.2⟩
  simpa using hl.1.append hr.1
termination_by (ts.length, 7)
decreasing_by all_goals exact sooner (by omega)

/-- What is read behind a product is well-formed. -/
theorem reads_products (s : Scope) (left : Expr) (hleft : left.Formed all) (ts : List Token)
    (h : At all s ts) : ReadsExpr all ts (products s left ts) := by
  match ts, h with
  | [], h =>
    rw [products]
    exact .ok [] rfl ⟨.nil, hleft⟩
  | op :: more, h =>
    have hcons : (op :: more).length = more.length + 1 := rfl
    have hmore := h.tail rfl
    rw [products]
    split
    · have hop := Inline.of_or ‹_› (by decide) (by decide)
      refine .operator hop (reads_unary s more hmore) fun r used v hts hv => ?_
      have hlt := r.shorter
      exact reads_products s v (.leaf hv) r.rest (hmore.rest hts)
    · exact .ok [] rfl ⟨.nil, hleft⟩
termination_by (ts.length, 0)
decreasing_by all_goals exact sooner (by omega)

/-- What is read as an operand with signs is well-formed. -/
theorem reads_unary (s : Scope) (ts : List Token) (h : At all s ts) :
    ReadsExpr all ts (unary s ts) := by
  match ts, h with
  | [], h =>
    rw [unary]
    exact .error
  | op :: more, h =>
    have hcons : (op :: more).length = more.length + 1 := rfl
    rw [unary]
    split
    · rename_i hop
      have hinline := Inline.of_or hop (by decide) (by decide)
      have hmore := h.tail rfl
      refine .behind [op] (.bind (reads_unary s more hmore) fun r used hts hr hltr =>
        .bind_of fun v hv => ?_)
      refine .ok [] rfl ⟨?_, .leaf (isLeaf_applySign hv)⟩
      simpa using hinline.append hr.1
    · exact reads_primary s op more h
termination_by (ts.length, 6)
decreasing_by all_goals exact sooner (by omega)

/-- What is read as an operand is well-formed. -/
theorem reads_primary (s : Scope) (t : Token) (rest : List Token) (h : At all s (t :: rest)) :
    ReadsExpr all (t :: rest) (primary s t rest) := by
  have hrest := h.tail rfl
  rw [primary.eq_def]
  dsimp only
  split
  · rename_i hkind
    rw [numeral]
    split
    · exact .leaf [t] rfl (.of_kind hkind (by decide)) trivial
    · exact .error
  · exact .leaf [t] rfl (.of_kind ‹_› (by decide)) trivial
  · exact .leaf [t] rfl (.of_kind ‹_› (by decide)) trivial
  · exact .leaf [t] rfl (.of_kind ‹_› (by decide)) trivial
  · exact .leaf [t] rfl (.of_kind ‹_› (by decide)) trivial
  · rename_i hopen
    refine .behind [t] (.bind (reads_expr s rest hrest) fun e used hts he hlte => ?_)
    refine .bind (reads_expect s .rparen e.rest) fun close _ _ hclose _ => .ok [] rfl ⟨?_, he.2⟩
    obtain ⟨rfl, hkind⟩ := hclose
    simpa using Inline.parens hopen hkind he.1
  · rename_i hkeyword
    split
    · rename_i hword
      refine .leaf [t] rfl (.single (by simp [hkeyword]) (by simp [hkeyword]) ?_) trivial
      rcases (by simpa using hword : t.word = "true" ∨ t.word = "false") with hw | hw
        <;> simp [Token.isWord, hw]
    · split
      · rename_i hfrom
        have hword : t.isWord "from" = true := by simp [Token.isWord, hkeyword, hfrom]
        refine ReadsExpr.called (reads_pinned hword (reads_pinnedCall s t.pos rest hrest))
          fun c used hts hc => ?_
        have hlt := c.shorter
        exact reads_chainAfter s c.value (t :: used) hc.1 hc.2.2 c.rest
          (h.of_eq (congrArg (t :: ·) hts))
      · exact .error
  · exact reads_named s t rest ‹_› h
  · exact .error
termination_by (rest.length + 1, 0)
decreasing_by all_goals exact sooner (by omega)

/-- What is read behind a call, alone or as the head of a chain, is well-formed. -/
theorem reads_chainAfter (s : Scope) (c : Call) (text : List Token) (htext : CallText text c)
    (hc : FormedCall all c) (ts : List Token) (h : At all s (text ++ ts)) :
    ReadsExpr all ts (chainAfter s c ts) := by
  have hts : At all s ts := h.rest rfl
  rw [chainAfter]
  split
  · refine .bind (reads_chainTail s { calls := [c], pos := c.pos } rfl ts hts)
      fun ch used hused hch _ => ?_
    exact .ok [] rfl ⟨by simpa using hch.inline, formed_called h.left htext hc hch hused⟩
  · exact .ok [] rfl ⟨.nil, formed_call h.left htext hc (notDot_of_peek ‹_›)⟩
termination_by (ts.length, 5)
decreasing_by exact Prod.Lex.right _ (by decide)

/-- What is read behind a first name is well-formed. -/
theorem reads_named (s : Scope) (first : Token) (rest : List Token)
    (hfirst : first.kind = .identifier) (h : At all s (first :: rest)) :
    ReadsExpr all (first :: rest) (named s first rest) := by
  have hinline : Inline [first] := .of_kind hfirst (by decide)
  have hrest := h.tail rfl
  rw [named]
  dsimp only
  split
  · rename_i hpi
    simp only [Bool.and_eq_true, decide_eq_true_eq] at hpi
    obtain ⟨⟨-, hdot⟩, hword⟩ := hpi
    have hsplit : first :: rest = first :: rest.take 2 ++ rest.drop 2 := by
      rw [List.cons_append, List.take_append_drop]
    refine .ok _ hsplit ⟨hinline.append ?_, .leaf trivial⟩
    match rest, hdot, hword with
    | [], hdot, _ => exact .nil
    | [dot], hdot, _ => exact .of_kind hdot (by decide)
    | dot :: pi :: more, hdot, hword =>
      have hmem : pi ∈ all := h.left.subset (by simp)
      exact .cons (.of_kind hdot (by decide)) (h.pi pi hmem hword)
  · split
    · refine .behind [first]
        (.bind (reads_chainTail s { base := some first.word, pos := first.pos } rfl rest hrest)
        fun ch used hused hch _ => ?_)
      exact .ok [] rfl ⟨by simpa using hinline.append hch.inline, formed_based h.left hch hused⟩
    · split
      · exact .leaf [first] rfl hinline trivial
      · have hlength := length_dottedPath rest
        obtain ⟨path, hpath, htext, hname⟩ := exists_dottedPath first rest
        split
        · have hcall := fun qual =>
            reads_qualified hfirst htext hname (reads_call s _ qual first.pos _ (hrest.rest hpath))
          refine .of_eq (congrArg (first :: ·) hpath)
            (ReadsExpr.called (hcall _) fun c used hts hc => ?_)
          have hlt := c.shorter
          refine reads_chainAfter s c.value (first :: path ++ used) hc.1 hc.2.2 c.rest (h.of_eq ?_)
          rw [List.append_assoc, ← hts]
          exact congrArg (first :: ·) hpath
        · refine .ok (first :: path) (congrArg (first :: ·) hpath) ⟨hinline.append htext.inline, ?_⟩
          split <;> exact .leaf trivial
termination_by (rest.length, 6)
decreasing_by all_goals exact sooner (by omega)

/-- A call pinned to a namespace is read from its own tokens. -/
theorem reads_pinnedCall (s : Scope) (at' : Pos) (ts : List Token) (h : At all s ts) :
    Reads ts (ReadCall all at') (pinnedCall s at' ts) := by
  rw [pinnedCall]
  refine .bind (reads_expect s .lparen ts) fun paren _ hts hparen hltp => ?_
  obtain ⟨rfl, hopen⟩ := hparen
  split
  · exact .error
  · rename_i ns more hr
    have hcons : paren.rest.length = more.length + 1 := by rw [hr]; rfl
    split
    · rename_i hns
      refine .of_eq hr (.behind [ns] ?_)
      refine .bind (reads_expect s .comma more) fun comma _ hmore hcomma hltm => ?_
      obtain ⟨rfl, hcommaKind⟩ := hcomma
      refine .bind (reads_expect s .identifier comma.rest) fun name _ hcrest hname hltn => ?_
      obtain ⟨rfl, hnameKind⟩ := hname
      have hleft := (((h.rest hts).tail hr).rest hmore).rest hcrest
      refine .bind (reads_call s _ [] name.value.pos name.rest hleft) fun c used _ hc hltc => ?_
      obtain ⟨⟨-, hinline, hformed, -⟩, -⟩ := hc
      refine .bind (reads_expect s .rparen c.rest) fun close _ _ hclose _ => .ok [] rfl ?_
      obtain ⟨rfl, hcloseKind⟩ := hclose
      have hinner : Inline (ns :: comma.value :: name.value :: used) :=
        .cons (.of_or hns (by decide) (by decide)) (.cons (.of_kind hcommaKind (by decide))
          (.cons (.of_kind hnameKind (by decide)) hinline))
      refine ⟨?_, ?_, ⟨⟨hformed.1.uniform, hformed.1.distinct⟩, hformed.2⟩, rfl⟩
      · simpa using ParenText.mk hopen hcloseKind hinner.matched
      · simpa using Inline.parens hopen hcloseKind hinner
    · exact .error
termination_by (ts.length, 0)
decreasing_by all_goals exact sooner (by omega)

/-- A call is read from its own tokens and carries the name it was read for. -/
theorem reads_call (s : Scope) (name : String) (qual : List String) (at' : Pos)
    (ts : List Token) (h : At all s ts) :
    Reads ts (fun used c => ReadCall all at' used c ∧ c.name = name) (call s name qual at' ts) := by
  rw [call]
  refine .bind (reads_expect s .lparen ts) fun paren _ hts hparen hltp =>
    .bind_of fun inner hinner => ?_
  obtain ⟨rfl, hopen⟩ := hparen
  have hleft : At all inner paren.rest := (h.rest hts).scope (enter_eq hinner ▸ rfl)
  have hnone : FormedArgs all [] [] := ⟨.inl rfl, .nil, by simp, by simp⟩
  refine .bind (reads_arguments inner [] [] hnone paren.rest hleft) fun args used _ hargs hlta => ?_
  refine .bind (reads_expect s .rparen args.rest) fun close _ _ hclose _ => .ok [] rfl ?_
  obtain ⟨rfl, hcloseKind⟩ := hclose
  obtain ⟨hinline, hformed⟩ := hargs
  refine ⟨⟨?_, ?_, ⟨⟨hformed.uniform, hformed.distinct⟩, ?_⟩, rfl⟩, rfl⟩
  · simpa using ParenText.mk hopen hcloseKind hinline.matched
  · simpa using Inline.parens hopen hcloseKind hinline
  · intro e he
    rcases List.mem_append.1 he with he | he
    · exact hformed.args e he
    · obtain ⟨k, hk, rfl⟩ := List.mem_map.1 he
      exact hformed.kwargs k hk
termination_by (ts.length, 4)
decreasing_by all_goals exact sooner (by omega)

/-- The arguments of a call stand on one line, the positional ones first. -/
theorem reads_arguments (s : Scope) (args : List Expr) (kwargs : List Keyword)
    (hargs : FormedArgs all args kwargs) (ts : List Token) (h : At all s ts) :
    Reads ts (fun used r => Inline used ∧ FormedArgs all r.1 r.2) (arguments s args kwargs ts) := by
  rw [arguments.eq_def]
  dsimp only
  split
  · exact .ok [] rfl ⟨.nil, hargs⟩
  · split
    · exact .error
    · rename_i hmixed
      split
      · rename_i hkeyword
        split
        · exact .error
        · rename_i hnew
          have hdrop : (ts.drop 2).length ≤ ts.length := by simp
          rw [Bool.and_eq_true, decide_eq_true_eq, decide_eq_true_eq] at hkeyword
          have hts : ts = [s.peek ts, s.peekSecond ts] ++ ts.drop 2 :=
            of_peekSecond h.last hkeyword.2 (by decide)
          have hlabel : Inline [s.peek ts, s.peekSecond ts] :=
            .cons (.of_kind hkeyword.1 (by decide)) (.of_kind hkeyword.2 (by decide))
          refine .of_eq hts (.behind _ ?_)
          refine .bind (reads_expr s (ts.drop 2) (h.rest hts)) fun v used hused hv hltv => ?_
          have hempty : args = [] := by simpa [hkeyword.1, hkeyword.2] using hmixed
          have hall := hargs.named hempty (by simpa using hnew) hv.2 (s.peek ts).pos
          have hleft := (h.rest hts).rest hused
          split
          · rename_i c more hr
            have hcons : v.rest.length = more.length + 1 := by rw [hr]; rfl
            split
            · rename_i hcomma
              refine .of_eq hr (.behind [c] ?_)
              refine .bind (reads_arguments s args _ hall more (hleft.tail hr))
                  fun z others _ hz _ =>
                .ok [] rfl ⟨?_, hz.2⟩
              simpa using hlabel.append
                (hv.1.append ((Inline.of_kind hcomma (by decide)).append hz.1))
            · exact .ok [] rfl ⟨by simpa using hlabel.append hv.1, hall⟩
          · exact .ok [] ‹_› ⟨by simpa using hlabel.append hv.1, hall⟩
      · rename_i hkeyword
        refine .bind (reads_expr s ts h) fun v used hused hv hltv => ?_
        have hempty : kwargs = [] := by simpa [hkeyword] using hmixed
        have hall := hargs.positional hempty hv.2
        split
        · rename_i c more hr
          have hcons : v.rest.length = more.length + 1 := by rw [hr]; rfl
          split
          · rename_i hcomma
            refine .of_eq hr (.behind [c] ?_)
            refine .bind (reads_arguments s _ kwargs hall more ((h.rest hused).tail hr))
              fun z others _ hz _ => .ok [] rfl ⟨?_, hz.2⟩
            simpa using hv.1.append ((Inline.of_kind hcomma (by decide)).append hz.1)
          · exact .ok [] rfl ⟨by simpa using hv.1, hall⟩
        · exact .ok [] ‹_› ⟨by simpa using hv.1, hall⟩
termination_by (ts.length, 10)
decreasing_by all_goals exact sooner (by omega)

/-- The rest of a chain is read from its own tokens, and ends at the first `out`. -/
theorem reads_chainTail (s : Scope) (ch : Chain) (hch : ch.out = none) (ts : List Token)
    (h : At all s ts) : Reads ts (ReadTail all ts ch) (chainTail s ch ts) := by
  match ts, h with
  | [], h =>
    rw [chainTail]
    exact .ok [] rfl (.stop hch (by simp))
  | [dot], h =>
    rw [chainTail]
    split
    · rename_i hdot
      exact .ok [] rfl (.stop hch (by simpa using hdot))
    · exact .error
  | dot :: t :: rest, h =>
    have hcons : (dot :: t :: rest).length = rest.length + 2 := rfl
    have hrest := (h.tail rfl).tail rfl
    rw [chainTail]
    split
    · rename_i hdot
      exact .ok [] rfl (.stop hch (by simpa using hdot))
    · rename_i hdot
      rw [ne_eq, not_not] at hdot
      split
      · rename_i hfrom
        have hnot : ∀ text after, t :: rest = text ++ after → ¬ StartsOut text := by
          intro text after htext hstarts
          have hword := (of_startsOut (s := s) hstarts htext).1
          simp [Token.isWord, hword] at hfrom
        have hcall := reads_pinned hfrom (reads_pinnedCall s t.pos rest hrest)
        refine ReadTail.reads_link hdot rfl hcall hnot fun c used hts => ?_
        have hlt := c.shorter
        exact reads_chainTail s { ch with calls := ch.calls ++ [c.value] } hch c.rest
          (hrest.rest hts)
      · split
        · exact .error
        · rename_i hkind
          rw [ne_eq, not_not] at hkind
          split
          · rename_i hout
            rw [Bool.and_eq_true, decide_eq_true_eq, decide_eq_true_eq] at hout
            have hdrop : (rest.drop 1).length ≤ rest.length := by simp
            have hmore := of_peek hrest.last hout.2 (by decide)
            refine .of_eq (congrArg (dot :: t :: ·) hmore) (.behind [dot, t, s.peek rest] ?_)
            refine .bind (reads_outTarget s t.pos _ (hrest.tail hmore))
              fun target used hused htarget _ => ?_
            obtain ⟨⟨inner, close, rfl, hclose, hinner⟩, he⟩ := htarget
            split
            · exact .error
            · rename_i hstop
              have hread : rest = s.peek rest :: (inner ++ [close] ++ target.rest) :=
                hmore.trans (congrArg (s.peek rest :: ·) hused)
              have hlink :=
                @ReadTail.out all (t :: rest) ch dot t (s.peek rest) close inner target.rest
                  target.value
                hdot (congrArg (t :: ·) hread) ⟨hkind, hout.1⟩ hout.2 hinner hclose he
                  (notDot_of_peek hstop)
              exact .ok [] rfl (by simpa using hlink)
          · rename_i hout
            have hlength := length_dottedPath rest
            obtain ⟨path, hpath, htext, hname⟩ := exists_dottedPath t rest
            have hleft := hrest.rest hpath
            have hcall :=
              fun qual => reads_qualified hkind htext hname (reads_call s _ qual t.pos _ hleft)
            refine ReadTail.reads_link hdot (congrArg (t :: ·) hpath) (hcall _) ?_ fun c used hts =>
              ?_
            · exact fun text after htext hstarts =>
                hout (by simpa using of_startsOut (s := s) hstarts htext)
            · have hlt := c.shorter
              exact reads_chainTail s { ch with calls := ch.calls ++ [c.value] } hch c.rest
                (hleft.rest hts)
termination_by (ts.length, 3)
decreasing_by all_goals exact sooner (by omega)

/-- The target of an `out` is an expression on one line. -/
theorem reads_outTarget (s : Scope) (at' : Pos) (ts : List Token) (h : At all s ts) :
    Reads ts (fun used e =>
      (∃ (inner : List Token) (close : Token),
        used = inner ++ [close] ∧ close.kind = .rparen ∧ Inline inner) ∧
      e.Formed all) (outTarget s at' ts) := by
  rw [outTarget]
  split
  · rename_i hclose
    have hts := of_peek h.last hclose (by decide)
    refine .ok [s.peek ts] hts ⟨⟨[], _, rfl, hclose, .nil⟩, .leaf trivial⟩
  · refine .bind (reads_expr s ts h) fun e used _ he hlte => ?_
    refine .bind (reads_expect s .rparen e.rest) fun close _ _ hclose _ => .ok [] rfl ⟨?_, he.2⟩
    obtain ⟨rfl, hkind⟩ := hclose
    exact ⟨used, close.value, by simp, hkind, he.1⟩
termination_by (ts.length, 10)
decreasing_by exact Prod.Lex.right _ (by decide)

end

end Parser

end EffectChain
