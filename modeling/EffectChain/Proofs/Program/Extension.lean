import EffectChain.Proofs.Program.Outcome
import EffectChain.Proofs.Program.Places
import EffectChain.Proofs.Program.Spelling

/-!
# EffectChain.Proofs.Program.Extension

What the parser makes of tokens when more tokens come behind them.

A production looks at most at one token behind those it takes, and at its kind.  So what is read
of some tokens is also read of tokens like them, at other places, with others behind
(`Parser.Extends`), when the first of these does not go on with what is before it
(`Token.goesOn`).  Expressions are the exception (`Parser.ExtendsExpr`): the name of an operation
at the end is called when a parenthesis comes behind it, and a dot at the end may be the one before
a name.
-/

namespace EffectChain

/-! ## tokens behind others -/

/-- A token that goes on with an expression, a list or a conditional before it. -/
def Token.goesOn (t : Token) : Bool :=
  [TokenKind.dot, .plus, .minus, .star, .slash, .comma].contains t.kind || t.isWord "elif" ||
    t.isWord "else"

/-- The expression is the name of something. -/
def Expr.IsName : Expr → Prop
  | .ident .. | .member .. => True
  | _ => False

/-- A token that no expression goes on with is none of the marks an expression goes on with. -/
theorem Token.ne_of_goesOn {t : Token} {kind : TokenKind} (h : t.goesOn = false)
    (hkind : kind ∈ [TokenKind.dot, .plus, .minus, .star, .slash, .comma]) : t.kind ≠ kind := by
  rintro rfl
  simp only [goesOn, Bool.or_eq_false_iff, List.contains_eq_mem, decide_eq_false_iff_not] at h
  exact h.1.1 hkind

namespace Parser

open Scope

/-- What comes behind the tokens that are read, which does not go on with them. -/
structure Behind where
  tokens : List Token
  last : Token
  stops : (tokens.headD last).goesOn = false

namespace Behind

/-- The first token behind. -/
def next (b : Behind) : Token := b.tokens.headD b.last

theorem next_ne (b : Behind) (kind : TokenKind)
    (hkind : kind ∈ [TokenKind.dot, .plus, .minus, .star, .slash, .comma]) :
    b.next.kind ≠ kind := Token.ne_of_goesOn b.stops hkind

/-- What is read behind an expression does not begin with a mark that it goes on with. -/
theorem head_ne (b : Behind) (kind : TokenKind)
    (hkind : kind ∈ [TokenKind.dot, .plus, .minus, .star, .slash, .comma]) :
    ∀ t ∈ b.tokens.head?, t.kind ≠ kind := by
  intro t ht
  have hnext : b.next = t := by rw [next, List.headD_eq_head?_getD, ht, Option.getD_some]
  exact hnext ▸ b.next_ne kind hkind

end Behind

/-- The scope, with other tokens behind. -/
def Scope.before (s : Scope) (b : Behind) : Scope := { s with last := b.last }

/-- The scope is that of tokens that end the input. -/
def Scope.AtEnd (s : Scope) : Prop := s.last.IsLast

theorem Scope.AtEnd.kind_ne {s : Scope} {kind : TokenKind} (h : s.AtEnd)
    (hkind : kind ≠ .endOfInput) :
    s.last.kind ≠ kind := h.1 ▸ hkind.symm

theorem Scope.AtEnd.peek_ne {s : Scope} (h : s.AtEnd) (kind : TokenKind)
    (hkind : kind ≠ .endOfInput) :
    (s.peek []).kind ≠ kind := h.kind_ne hkind

/-- Going deeper does not depend on what stands behind. -/
theorem Scope.enter_before {s inner : Scope} {pos : Pos} (h : s.enter pos = .ok inner) (b : Behind)
    (pos' : Pos) :
    (s.before b).enter pos' = .ok (inner.before b) := by
  unfold enter at h ⊢
  split at h
  · cases h
  · rename_i hdepth
    obtain rfl := Except.ok.inj h
    exact if_neg hdepth

/-- Whoever goes deeper at the end of a text is at its end. -/
theorem Scope.AtEnd.enter {s inner : Scope} {pos : Pos} (hs : s.AtEnd)
    (h : s.enter pos = .ok inner) : inner.AtEnd := by
  unfold Scope.enter at h
  split at h
  · cases h
  · obtain rfl := Except.ok.inj h
    exact hs

/-- A parser that succeeds leaves fewer tokens than it was given. -/
theorem outcome_lt {α : Type} {n : Nat} {r : Except SyntaxError (Parsed α n)} {v : α}
    {rest : List Token} (h : outcome r = .ok (v, rest)) : rest.length < n := by
  cases r with
  | error e => cases h
  | ok x =>
    obtain rfl : x.rest = rest := congrArg Prod.snd (Except.ok.inj h)
    exact x.shorter

/-! ## what is read with more behind -/

variable {α β : Type} {b : Behind}

/-- What is read of tokens is read of tokens like them with more behind. -/
def Extends (b : Behind) (like : α → α → Prop) (r r' : Except SyntaxError (α × List Token)) :
    Prop :=
  ∀ v rest, r = .ok (v, rest) → ∃ v' rest', r' = .ok (v', rest' ++ b.tokens) ∧ like v v' ∧
    rest.Forall₂ Token.Alike rest'

/-- The same expression at another place. -/
def AlikeExpr (e e' : Expr) : Prop := e'.unplaced = e.unplaced

def AlikeCall (c c' : Call) : Prop := c'.unplaced = c.unplaced

def AlikeChain (ch ch' : Chain) : Prop := ch'.unplaced = ch.unplaced

/-- So it is for an expression, when it does not end before a dot, unless it is a name that becomes
a call. -/
def ExtendsExpr (b : Behind) (r r' : Except SyntaxError (Expr × List Token)) : Prop :=
  ∀ e rest, r = .ok (e, rest) → (∀ t ∈ rest.head?, t.kind ≠ .dot) →
    (∃ e' rest', r' = .ok (e', rest' ++ b.tokens) ∧ AlikeExpr e e' ∧
      rest.Forall₂ Token.Alike rest') ∨
      rest = [] ∧ e.IsName ∧ b.next.kind = .lparen ∧ ∀ e' rest', r' = .ok (e', rest') → ¬ e'.IsName

/-- So it is where the tokens that are left begin with one that is no dot. -/
def ExtendsInside (b : Behind) (like : α → α → Prop) (r r' : Except SyntaxError (α × List Token)) :
    Prop :=
  ∀ v t more, r = .ok (v, t :: more) → t.kind ≠ .dot →
    ∃ v' rest', r' = .ok (v', rest' ++ b.tokens) ∧ like v v' ∧ (t :: more).Forall₂ Token.Alike rest'

namespace Extends

variable {like : α → α → Prop} {like' : β → β → Prop} {r r' : Except SyntaxError (α × List Token)}

theorem error {e : SyntaxError} : Extends b like (.error e) r' := nofun

theorem ok {v v' : α} {rest rest' : List Token} (hv : like v v')
    (hrest : rest.Forall₂ Token.Alike rest') :
    Extends b like (.ok (v, rest)) (.ok (v', rest' ++ b.tokens)) := by
  rintro v rest ⟨⟩
  exact ⟨v', rest', rfl, hv, hrest⟩

/-- Readings one after the other are extended when each of them is. -/
theorem bind {f f' : α × List Token → Except SyntaxError (β × List Token)} (h : Extends b like r r')
    (hf : ∀ v v' rest rest', r = .ok (v, rest) → like v v' → rest.Forall₂ Token.Alike rest' →
      Extends b like' (f (v, rest)) (f' (v', rest' ++ b.tokens))) :
    Extends b like' (r >>= f) (r' >>= f') := by
  intro w more hread
  obtain ⟨⟨v, rest⟩, hv, hread⟩ := exists_of_bind hread
  obtain ⟨v', rest', rfl, hlike, hrest⟩ := h v rest hv
  exact hf v v' rest rest' hv hlike hrest w more hread

/-- A step that reads nothing. -/
theorem bind_of {γ : Type} {x x' : Except SyntaxError γ}
    {f f' : γ → Except SyntaxError (β × List Token)}
    (h : ∀ v, x = .ok v → ∃ v', x' = .ok v' ∧ Extends b like' (f v) (f' v')) :
    Extends b like' (x >>= f) (x' >>= f') := by
  intro w more hread
  obtain ⟨v, hv, hread⟩ := exists_of_bind hread
  obtain ⟨v', rfl, hf⟩ := h v hv
  exact hf w more hread

theorem enter {s : Scope} {pos pos' : Pos} {f f' : Scope → Except SyntaxError (β × List Token)}
    (hs : s.AtEnd) (h : ∀ inner, inner.AtEnd → Extends b like' (f inner) (f' (inner.before b))) :
    Extends b like' (s.enter pos >>= f) ((s.before b).enter pos' >>= f') :=
  .bind_of fun inner hinner => ⟨_, enter_before hinner b pos', h inner (hs.enter hinner)⟩

end Extends

/-- What is seen where tokens are left, and where none are left. -/
theorem peek_kind (s : Scope) {ts ts' : List Token} (h : ts.Forall₂ Token.Alike ts') :
    ts = [] ∧ ts' = [] ∨ ((s.before b).peek (ts' ++ b.tokens)).kind = (s.peek ts).kind := by
  cases h with
  | nil => exact .inl ⟨rfl, rfl⟩
  | cons ht _ => exact .inr ht.kind

/-- A dot is not behind. -/
theorem peek_dot (b : Behind) {s : Scope} (hs : s.AtEnd) {ts ts' : List Token}
    (h : ts.Forall₂ Token.Alike ts') :
    ((s.before b).peek (ts' ++ b.tokens)).kind = .dot ↔ (s.peek ts).kind = .dot := by
  obtain ⟨rfl, rfl⟩ | hpeek := peek_kind s h
  · exact iff_of_false (b.next_ne .dot (by simp)) (hs.peek_ne .dot (by simp))
  · rw [hpeek]

/-- An expected token is found as well when something stands behind. -/
theorem extends_expect (s : Scope) (kind : TokenKind) {ts ts' : List Token}
    (h : ts.Forall₂ Token.Alike ts') :
    Extends b Token.Alike (outcome (s.expect kind ts))
      (outcome ((s.before b).expect kind (ts' ++ b.tokens))) := by
  cases h with
  | nil => exact .error
  | @cons t t' rest rest' ht hrest =>
    rw [List.cons_append, expect, expect, ht.kind]
    split
    · exact .ok ht hrest
    · exact .error

theorem extends_closed {like : α → α → Prop} (s : Scope) {v v' : α} {rest rest' : List Token}
    (hv : like v v') (hrest : rest.Forall₂ Token.Alike rest') :
    Extends b like (closed s (v, rest)) (closed (s.before b) (v', rest' ++ b.tokens)) :=
  .bind (extends_expect s .rparen hrest) fun _ _ _ _ _ _ hmore => .ok hv hmore

/-- Where a token was expected and found, the text begins with it. -/
theorem expect_head {s : Scope} {kind : TokenKind} {ts : List Token} {x : Token × List Token}
    (h : outcome (s.expect kind ts) = .ok x) : ∃ t more, ts = t :: more ∧ t.kind = kind := by
  cases ts with
  | nil => cases h
  | cons t more =>
    rw [expect] at h
    split at h
    · exact ⟨t, more, rfl, ‹_›⟩
    · cases h

/-- What is read before a closing parenthesis stops at it. -/
theorem exists_of_closed {s : Scope} {v : α} {ts : List Token} {x : α × List Token}
    (h : closed s (v, ts) = .ok x) :
    ∃ close rest, ts = close :: rest ∧ close.kind = .rparen := by
  obtain ⟨close, hclose, -⟩ := exists_of_bind h
  exact expect_head hclose

namespace ExtendsExpr

variable {r r' : Except SyntaxError (Expr × List Token)}

theorem of_extends (h : Extends b AlikeExpr r r') : ExtendsExpr b r r' :=
  fun e rest hread _ => .inl (h e rest hread)

theorem error {e : SyntaxError} : ExtendsExpr b (.error e) r' := .of_extends .error

theorem ok {e e' : Expr} {rest rest' : List Token} (he : AlikeExpr e e')
    (hrest : rest.Forall₂ Token.Alike rest') :
    ExtendsExpr b (.ok (e, rest)) (.ok (e', rest' ++ b.tokens)) := .of_extends (.ok he hrest)

theorem enter {s : Scope} {pos pos' : Pos} {f f' : Scope → Except SyntaxError (Expr × List Token)}
    (hs : s.AtEnd) (h : ∀ inner, inner.AtEnd → ExtendsExpr b (f inner) (f' (inner.before b))) :
    ExtendsExpr b (s.enter pos >>= f) ((s.before b).enter pos' >>= f') := by
  intro e rest hread hrest
  obtain ⟨inner, hinner, hread⟩ := exists_of_bind hread
  rw [enter_before hinner b pos']
  exact h inner (hs.enter hinner) e rest hread hrest

/-- An expression that is extended is extended within parentheses. -/
theorem inside (h : ExtendsExpr b r r') : ExtendsInside b AlikeExpr r r' := by
  intro e t more hread ht
  obtain hextends | ⟨hnil, -⟩ := h e (t :: more) hread (by simpa using ht)
  · exact hextends
  · cases hnil

end ExtendsExpr

namespace ExtendsInside

variable {like : α → α → Prop} {like' : β → β → Prop} {r r' : Except SyntaxError (α × List Token)}
  {f f' : α × List Token → Except SyntaxError (β × List Token)}

theorem of_extends (h : Extends b like r r') : ExtendsInside b like r r' :=
  fun v t more hread _ => h v (t :: more) hread

/-- What is done behind has to stop at no dot. -/
theorem bind (h : ExtendsInside b like r r')
    (hstop : ∀ v rest x, f (v, rest) = .ok x → ∃ t more, rest = t :: more ∧ t.kind ≠ .dot)
    (hf : ∀ v v' rest rest', r = .ok (v, rest) → like v v' → rest.Forall₂ Token.Alike rest' →
      Extends b like' (f (v, rest)) (f' (v', rest' ++ b.tokens))) :
    Extends b like' (r >>= f) (r' >>= f') := by
  intro w others hread
  obtain ⟨⟨v, rest⟩, hv, hread⟩ := exists_of_bind hread
  obtain ⟨t, more, rfl, ht⟩ := hstop v rest _ hread
  obtain ⟨v', rest', rfl, hlike, hrest⟩ := h v t more hv ht
  exact hf v v' _ rest' hv hlike hrest w others hread

/-- In parentheses. -/
theorem closed {s : Scope} {g g' : α → β} (h : ExtendsInside b like r r')
    (hg : ∀ v v', like v v' → like' (g v) (g' v')) :
    Extends b like' (r >>= fun x => Parser.closed s (g x.1, x.2))
      (r' >>= fun x => Parser.closed (s.before b) (g' x.1, x.2)) := by
  refine h.bind (fun v rest x hx => ?_) fun v v' rest rest' _ hv hrest =>
    extends_closed s (hg v v' hv) hrest
  obtain ⟨close, more, hmore, hclose⟩ := exists_of_closed hx
  exact ⟨close, more, hmore, by simp [hclose]⟩

end ExtendsInside

/-! ## operators -/

/-- Numbers that are alike but for their places are numbers. -/
theorem exists_number {e : Expr} {v : Float} {raw : String} {pos : Pos}
    (h : e.unplaced = .number v raw pos) :
    ∃ pos, e = .number v raw pos := by
  cases e <;> simp only [Expr.unplaced, reduceCtorEq, Expr.number.injEq] at h
  obtain ⟨rfl, rfl, -⟩ := h
  exact ⟨_, rfl⟩

/-- Only numbers are joined by an operator, and to a number. -/
theorem exists_of_fold {op : Token} {left right v : Expr} (h : fold op left right = .ok v) :
    (∃ x raw pos, left = .number x raw pos) ∧ (∃ x raw pos, right = .number x raw pos) ∧
      ∃ x raw pos, v = .number x raw pos := by
  unfold fold at h
  split at h
  · refine ⟨⟨_, _, _, rfl⟩, ⟨_, _, _, rfl⟩, ?_⟩
    split at h
    case h_4 =>
      split at h
      · cases h
      · exact ⟨_, _, _, (Except.ok.inj h).symm⟩
    all_goals exact ⟨_, _, _, (Except.ok.inj h).symm⟩
  · cases h

/-- Alike operands of alike operators make alike numbers. -/
theorem fold_alike {op op' : Token} {left left' right right' v : Expr} (hop : op.Alike op')
    (hleft : AlikeExpr left left')
    (hright : AlikeExpr right right') (h : fold op left right = .ok v) :
    ∃ v', fold op' left' right' = .ok v' ∧ AlikeExpr v v' := by
  obtain ⟨⟨x, rawx, posx, rfl⟩, ⟨y, rawy, posy, rfl⟩, -⟩ := exists_of_fold h
  obtain ⟨posx', rfl⟩ := exists_number hleft
  obtain ⟨posy', rfl⟩ := exists_number hright
  unfold fold at h ⊢
  dsimp only at h ⊢
  rw [hop.kind]
  split at h
  case h_4 =>
    split at h
    · cases h
    · rename_i hzero
      obtain rfl := Except.ok.inj h
      exact ⟨_, if_neg hzero, rfl⟩
  all_goals
    obtain rfl := Except.ok.inj h
    exact ⟨_, rfl, rfl⟩

/-- Alike signs before alike operands make alike numbers, and no name. -/
theorem applySign_alike {op op' : Token} {e e' v : Expr} (hop : op.Alike op') (he : AlikeExpr e e')
    (h : applySign op e = .ok v) :
    ¬ e.IsName ∧ ∃ v', applySign op' e' = .ok v' ∧ AlikeExpr v v' := by
  unfold applySign at h
  split at h
  · obtain ⟨pos, rfl⟩ := exists_number he
    refine ⟨id, ?_⟩
    unfold applySign
    dsimp only
    rw [hop.kind]
    split at h <;> obtain rfl := Except.ok.inj h
    · exact ⟨_, if_pos ‹_›, rfl⟩
    · exact ⟨_, if_neg ‹_›, rfl⟩
  · cases h

/-- Operands that are joined from the left by operators of a kind, as long as such an operator
comes. -/
structure Operators (p : TokenKind → Bool)
    (operand : List Token → Except SyntaxError (Expr × List Token))
    (loop : Expr → List Token → Except SyntaxError (Expr × List Token)) : Prop where
  nil : ∀ e, loop e [] = .ok (e, [])
  cons : ∀ e op more, loop e (op :: more) =
    if p op.kind then operand more >>= fun r => fold op e r.1 >>= fun v =>
      loop v r.2 else .ok (e, op :: more)
  shorter : ∀ ts x, operand ts = .ok x → x.2.length < ts.length

theorem operators_sums (s : Scope) : Operators (fun k => k = .plus || k = .minus)
    (fun ts => outcome (multiplicative s ts)) fun e ts => outcome (sums s e ts) :=
  ⟨outcome_sums_nil s, outcome_sums s, fun _ _ h => outcome_lt h⟩

theorem operators_products (s : Scope) : Operators (fun k => k = .star || k = .slash)
    (fun ts => outcome (unary s ts)) fun e ts => outcome (products s e ts) :=
  ⟨outcome_products_nil s, outcome_products s, fun _ _ h => outcome_lt h⟩

namespace Operators

variable {p : TokenKind → Bool}
    {operand operand' : List Token → Except SyntaxError (Expr × List Token)}
  {loop loop' : Expr → List Token → Except SyntaxError (Expr × List Token)}

/-- Without an operator behind it an operand stands alone. -/
theorem stop (h : Operators p operand loop) (e : Expr) {ts : List Token}
    (hts : ∀ t ∈ ts.head?, p t.kind = false) :
    loop e ts = .ok (e, ts) := by
  cases ts with
  | nil => exact h.nil e
  | cons t ts => rw [h.cons, if_neg (by simp [hts t rfl])]

/-- An operand is left before a dot only if all is. -/
theorem head_ne_dot (h : Operators p operand loop) (hdot : p .dot = false) {e : Expr}
    {rest : List Token} {x : Expr × List Token} (hread : loop e rest = .ok x)
    (hx : ∀ t ∈ x.2.head?, t.kind ≠ .dot) :
    ∀ t ∈ rest.head?, t.kind ≠ .dot := by
  intro t ht hkind
  have hstop : ∀ t' ∈ rest.head?, p t'.kind = false := by
    intro t' ht'
    obtain rfl : t = t' := Option.some.inj (ht.symm.trans ht')
    rwa [hkind]
  rw [h.stop e hstop] at hread
  obtain rfl := Except.ok.inj hread
  exact hx t ht hkind

/-- What is joined is a number. -/
theorem cases (h : Operators p operand loop) {e : Expr} {ts : List Token} {x : Expr × List Token}
    (hread : loop e ts = .ok x) : x.1 = e ∨ ∃ v raw pos, x.1 = .number v raw pos := by
  match ts, hread with
  | [], hread =>
    rw [h.nil] at hread
    obtain rfl := Except.ok.inj hread
    exact .inl rfl
  | op :: more, hread =>
    rw [h.cons] at hread
    split at hread
    · obtain ⟨r, hr, hread⟩ := exists_of_bind hread
      obtain ⟨v, hv, hread⟩ := exists_of_bind hread
      obtain ⟨-, -, hnumber⟩ := exists_of_fold hv
      have hlt := h.shorter more r hr
      exact .inr ((h.cases hread).elim (fun hx => hx ▸ hnumber) id)
    · obtain rfl := Except.ok.inj hread
      exact .inl rfl
termination_by ts.length
decreasing_by all_goals exact Nat.lt_succ_of_lt hlt

/-- What operators make of a number is no name: a name that is read was the operand. -/
theorem isName (h : Operators p operand loop) {e : Expr} {ts : List Token} {x : Expr × List Token}
    (hread : loop e ts = .ok x) (hx : x.1.IsName) : e.IsName := by
  obtain heq | ⟨v, raw, pos, hnumber⟩ := h.cases hread
  · rwa [heq] at hx
  · rw [hnumber] at hx
    exact hx.elim

/-- By recursion on the tokens: an operator is followed by an operand and by the operators behind
it. -/
theorem extends_loop (h : Operators p operand loop) (h' : Operators p operand' loop')
    (hdot : p .dot = false) (hend : ∀ t ∈ b.tokens.head?, p t.kind = false) {ts ts' : List Token}
    (hts : ts.Forall₂ Token.Alike ts')
    (hoperand : ∀ us us' : List Token, us.length < ts.length → us.Forall₂ Token.Alike us' →
      ExtendsExpr b (operand us) (operand' (us' ++ b.tokens))) {e e' : Expr} (he : AlikeExpr e e') :
    ExtendsExpr b (loop e ts) (loop' e' (ts' ++ b.tokens)) := by
  match ts, ts', hts with
  | _, _, .nil =>
    rw [h.nil, List.nil_append, h'.stop e' hend]
    exact .ok he .nil
  | op :: more, op' :: more', .cons hop hmore =>
    rw [h.cons, List.cons_append, h'.cons, hop.kind]
    by_cases hp : p op.kind
    · rw [if_pos hp, if_pos hp]
      intro x rest hread hrest
      obtain ⟨⟨r, rrest⟩, hr, hread⟩ := exists_of_bind hread
      obtain ⟨v, hv, hread⟩ := exists_of_bind hread
      have hlt : rrest.length < more.length := h.shorter more _ hr
      obtain ⟨r', rrest', hr', hrlike, hrrest⟩ | ⟨-, hname, -⟩ :=
        hoperand more more' (Nat.lt_succ_self _) hmore r rrest hr (h.head_ne_dot hdot hread hrest)
      · obtain ⟨v', hv', hvlike⟩ := fold_alike hop he hrlike hv
        have hothers := h.extends_loop h' hdot hend hrrest
          (fun us us' hus => hoperand us us' (by simp only [List.length_cons]; omega)) hvlike x rest
            hread hrest
        rw [hr']
        dsimp only [Bind.bind, Except.bind]
        rwa [hv']
      · obtain ⟨-, ⟨y, raw, pos, rfl⟩, -⟩ := exists_of_fold hv
        exact hname.elim
    · rw [if_neg hp, if_neg hp]
      exact .ok he (.cons hop hmore)
termination_by ts.length
decreasing_by all_goals exact Nat.lt_succ_of_lt hlt

/-- An operand and the operators behind it. -/
theorem extends_bind (h : Operators p operand loop) (h' : Operators p operand' loop')
    (hdot : p .dot = false) {r r' : Except SyntaxError (Expr × List Token)}
    (hr : ExtendsExpr b r r')
    (hloop : ∀ e e' rest rest', r = .ok (e, rest) → AlikeExpr e e' →
      rest.Forall₂ Token.Alike rest' →
      ExtendsExpr b (loop e rest) (loop' e' (rest' ++ b.tokens))) :
    ExtendsExpr b (r >>= fun x => loop x.1 x.2) (r' >>= fun x => loop' x.1 x.2) := by
  intro v more hread hmore
  obtain ⟨⟨e, rest⟩, he, hread⟩ := exists_of_bind hread
  obtain ⟨e', rest', rfl, hlike, hrest⟩ | ⟨rfl, hname, hparen, hother⟩ :=
    hr e rest he (h.head_ne_dot hdot hread hmore)
  · exact hloop e e' rest rest' he hlike hrest v more hread hmore
  · obtain ⟨rfl, rfl⟩ := Prod.mk.inj (Except.ok.inj ((h.nil e).symm.trans hread))
    refine .inr ⟨rfl, hname, hparen, fun v' rest' hread' hv' => ?_⟩
    obtain ⟨⟨e', others⟩, he', hread'⟩ := exists_of_bind hread'
    exact hother e' others he' (h'.isName hread' hv')

end Operators

/-! ## names -/

/-- A path ends where no dot follows. -/
theorem dottedPath_end {ts : List Token} (h : ∀ t ∈ ts.head?, t.kind ≠ .dot) :
    dottedPath ts = ([], ts) := by
  unfold dottedPath
  split
  · rename_i d t rest
    rw [if_neg]
    simp [h d rfl]
  · rfl

/-- A path that does not end before a dot. -/
theorem dottedPath_alike {ts ts' : List Token} (h : ts.Forall₂ Token.Alike ts')
    (hdot : ∀ t ∈ (dottedPath ts).2.head?, t.kind ≠ .dot) :
    ∃ rest, dottedPath (ts' ++ b.tokens) = ((dottedPath ts).1, rest ++ b.tokens) ∧
      (dottedPath ts).2.Forall₂ Token.Alike rest := by
  fun_induction dottedPath ts generalizing ts' with
  | case1 d t more hpath ih =>
    cases h with
    | @cons _ d' _ _ hd h =>
    cases h with
    | @cons _ t' _ more' ht hmore =>
      obtain ⟨rest, hread, hrest⟩ := ih hmore hdot
      have hpath' : (d'.kind = .dot && t'.kind = .identifier) = true := by rwa [hd.kind, ht.kind]
      refine ⟨rest, ?_, hrest⟩
      rw [List.cons_append, List.cons_append, dottedPath, if_pos hpath', hread, ht.word]
  | case2 d t more hpath =>
    cases h with
    | @cons _ d' _ _ hd h =>
    cases h with
    | @cons _ t' _ more' ht hmore =>
      have hpath' : ¬ (d'.kind = .dot && t'.kind = .identifier) = true := by rwa [hd.kind, ht.kind]
      refine ⟨d' :: t' :: more', ?_, .cons hd (.cons ht hmore)⟩
      rw [List.cons_append, List.cons_append, dottedPath, if_neg hpath']
  | case3 ts hshort =>
    refine ⟨ts', dottedPath_end fun t ht => ?_, h⟩
    cases h with
    | nil => exact b.head_ne .dot (by simp) t ht
    | cons hd _ =>
      obtain rfl : _ = t := by simpa using ht
      rw [hd.kind]
      exact hdot _ rfl

/-! ## calls and chains -/

/-- A call that was read begins with a parenthesis. -/
theorem call_head {s : Scope} {name : String} {qual : List String} {pos : Pos} {ts : List Token}
    {x : Call × List Token} (h : outcome (call s name qual pos ts) = .ok x) :
    ∀ t ∈ ts.head?, t.kind = .lparen := by
  rw [outcome_call] at h
  obtain ⟨paren, hparen, -⟩ := exists_of_bind h
  obtain ⟨t, more, rfl, hkind⟩ := expect_head hparen
  rintro _ ⟨⟩
  exact hkind

/-- A call is no name. -/
theorem not_isName_of_chainAfter {s : Scope} {c : Call} {ts : List Token} {x : Expr × List Token}
    (h : outcome (chainAfter s c ts) = .ok x) : ¬ x.1.IsName := by
  rw [outcome_chainAfter] at h
  split at h
  · obtain ⟨ch, -, h⟩ := exists_of_bind h
    obtain rfl := Except.ok.inj h
    exact id
  · obtain rfl := Except.ok.inj h
    exact id

theorem alikeCall_args {c c' : Call} (h : AlikeCall c c') (ns : NamespaceRef) (pos pos' : Pos) :
    AlikeCall { c with ns, pos } { c' with ns, pos := pos' } := by
  simp only [AlikeCall, CallOf.unplaced, CallOf.mk.injEq] at h ⊢
  exact ⟨h.1, h.2.1, h.2.2.1, trivial, trivial⟩

theorem alikeChain_base (name : String) (pos pos' : Pos) :
    AlikeChain { base := some name, pos } { base := some name, pos := pos' } := rfl

/-- A call at the end of alike chains keeps them alike. -/
theorem alikeChain_link {ch ch' : Chain} {c c' : Call} (hch : AlikeChain ch ch')
    (hc : AlikeCall c c') :
    AlikeChain { ch with calls := ch.calls ++ [c] } { ch' with calls := ch'.calls ++ [c'] } := by
  simp only [AlikeChain, ChainOf.unplaced, ChainOf.mk.injEq] at hch ⊢
  refine ⟨hch.1, ?_, hch.2.2.1, trivial⟩
  rw [List.map_append, List.map_append, hch.2.1, List.map_singleton, List.map_singleton, hc]

theorem alikeChain_single {c c' : Call} (h : AlikeCall c c') :
    AlikeChain { calls := [c], pos := c.pos } { calls := [c'], pos := c'.pos } := by
  rw [AlikeChain, ChainOf.unplaced, ChainOf.unplaced, List.map_singleton, List.map_singleton, h]

theorem alikeChain_out {ch ch' : Chain} {e e' : Expr} (hch : AlikeChain ch ch')
    (he : AlikeExpr e e') :
    AlikeChain { ch with out := some e } { ch' with out := some e' } := by
  simp only [AlikeChain, ChainOf.unplaced, ChainOf.mk.injEq] at hch ⊢
  exact ⟨hch.1, hch.2.1, congrArg some he, trivial⟩

/-- Arguments that are the same at other places. -/
def AlikeArgs (x x' : List Expr × List Keyword) : Prop :=
  x'.1.map Expr.unplaced = x.1.map Expr.unplaced ∧ x'.2.map KeywordOf.unplaced =
    x.2.map KeywordOf.unplaced

namespace AlikeArgs

variable {args args' : List Expr} {kwargs kwargs' : List Keyword} {e e' : Expr}

theorem positional (h : AlikeArgs (args, kwargs) (args', kwargs')) (he : AlikeExpr e e') :
    AlikeArgs (args ++ [e], kwargs) (args' ++ [e'], kwargs') := by
  refine ⟨?_, h.2⟩
  rw [List.map_append, List.map_append, h.1, List.map_singleton, List.map_singleton, he]

/-- One more argument by name keeps arguments alike. -/
theorem named (h : AlikeArgs (args, kwargs) (args', kwargs')) (he : AlikeExpr e e') (name : String)
    (pos pos' : Pos) :
    AlikeArgs (args, kwargs ++ [⟨name, e, pos⟩]) (args', kwargs' ++ [⟨name, e', pos'⟩]) := by
  refine ⟨h.1, ?_⟩
  rw [List.map_append, List.map_append, h.2, List.map_singleton, List.map_singleton,
    KeywordOf.unplaced, KeywordOf.unplaced, he]

theorem isEmpty_args (h : AlikeArgs (args, kwargs) (args', kwargs')) :
    args'.isEmpty = args.isEmpty := by
  rw [← List.isEmpty_map (f := Expr.unplaced), h.1, List.isEmpty_map]

theorem isEmpty_kwargs (h : AlikeArgs (args, kwargs) (args', kwargs')) :
    kwargs'.isEmpty = kwargs.isEmpty := by
  rw [← List.isEmpty_map (f := KeywordOf.unplaced), h.2, List.isEmpty_map]

/-- Alike arguments have the same names. -/
theorem any_name (h : AlikeArgs (args, kwargs) (args', kwargs')) (name : String) :
    (kwargs'.any fun k => k.name = name) = kwargs.any fun k => k.name = name := by
  have hany : ∀ ks : List Keyword, (ks.any fun k => k.name = name) =
      (ks.map KeywordOf.unplaced).any fun k => k.name = name := fun ks => by rw [List.any_map]; rfl
  rw [hany, h.2, ← hany]

end AlikeArgs

/-- An argument that is read, and the ones behind it. -/
theorem ExtendsExpr.argument {r r' : Except SyntaxError (Expr × List Token)}
    {f f' : Expr × List Token → Except SyntaxError ((List Expr × List Keyword) × List Token)}
    (h : ExtendsExpr b r r')
    (hstop : ∀ e rest v t more, f (e, rest) = .ok (v, t :: more) → t.kind ≠ .dot →
      ∃ t more, rest = t :: more ∧ t.kind ≠ .dot)
    (hf : ∀ e e' rest rest', r = .ok (e, rest) → AlikeExpr e e' → rest.Forall₂ Token.Alike rest' →
      ExtendsInside b AlikeArgs (f (e, rest)) (f' (e', rest' ++ b.tokens))) :
    ExtendsInside b AlikeArgs (r >>= f) (r' >>= f') := by
  intro v t more hread ht
  obtain ⟨⟨e, rest⟩, he, hread⟩ := exists_of_bind hread
  obtain ⟨t', more', rfl, ht'⟩ := hstop e rest v t more hread ht
  obtain ⟨e', rest', rfl, hlike, hrest⟩ := h.inside e t' more' he ht'
  exact hf e e' _ rest' he hlike hrest v t more hread ht

/-- Arguments that end with something else than a dot begin with something else. -/
theorem further_stop {s : Scope} {args : List Expr} {kwargs : List Keyword} {rest more : List Token}
    {v : List Expr × List Keyword} {t : Token}
    (h : furtherArguments s args kwargs rest = .ok (v, t :: more)) (ht : t.kind ≠ .dot) :
    ∃ t more, rest = t :: more ∧ t.kind ≠ .dot := by
  unfold furtherArguments at h
  split at h
  · cases h
  · rename_i c others
    refine ⟨c, others, rfl, fun hc => ?_⟩
    rw [if_neg (by simp [hc])] at h
    obtain ⟨-, rfl, rfl⟩ := by simpa using h
    exact ht hc

/-- A name without a dot or a parenthesis behind it is read as the name alone. -/
theorem pathAt_end {s : Scope} {ts : List Token} (h : ∀ t ∈ ts.head?, t.kind ≠ .dot)
    (hparen : (s.peek ts).kind ≠ .lparen)
    (t : Token) : pathAt s t ts = .ok (.ident t.word t.pos, ts) := by
  rw [pathAt, dottedPath_end h, if_neg hparen]
  rfl

/-- Without a dot behind it, a name is bound or else what its path is. -/
theorem named_of_not_dot (s : Scope) (ts : List Token) (h : ∀ t ∈ ts.head?, t.kind ≠ .dot)
    (hpeek : (s.peek ts).kind ≠ .dot)
    (t : Token) : outcome (named s t ts) = pathAt s t ts := by
  rw [outcome_named, if_neg (by simp [hpeek]), if_neg (by simp [hpeek])]
  split
  · rename_i hbound
    have hparen : (s.peek ts).kind ≠ .lparen := by simpa using (Bool.and_eq_true_iff.1 hbound).2
    exact (pathAt_end h hparen t).symm
  · rfl

/-- What a name with a dot behind it is read as: the number of the circle, a chain of a variable,
or a path. -/
theorem named_of_dot (s : Scope) (ts : List Token) (h : (s.peek ts).kind = .dot) (t : Token) :
    outcome (named s t ts) =
      if t.word = "Math" && (s.peekSecond ts).word = "PI" then
        .ok (.number 3.141592653589793 "Math.PI" t.pos, ts.drop 2)
      else if s.vars.contains t.word then
        outcome (chainTail s { base := some t.word, pos := t.pos } ts) >>= fun ch =>
          .ok (.chain ch.1, ch.2)
      else pathAt s t ts := by
  rw [outcome_named]
  simp only [h, decide_true, Bool.and_true]
  refine ite_congr rfl (fun _ => rfl) fun _ => ?_
  refine ite_congr rfl (fun _ => rfl) fun hbound => ?_
  rw [if_neg (by simp_all)]

mutual

/-- An expression is read as before when something stands behind the text. -/
theorem extends_expr (s : Scope) (hs : s.AtEnd) {ts ts' : List Token}
    (h : ts.Forall₂ Token.Alike ts') :
    ExtendsExpr b (outcome (expr s ts)) (outcome (expr (s.before b) (ts' ++ b.tokens))) := by
  rw [outcome_expr, outcome_expr]
  exact .enter hs fun inner hinner => extends_additive inner hinner h
termination_by (ts.length, 9)
decreasing_by exact Prod.Lex.right _ (by decide)

/-- A sum is read as before when something stands behind the text. -/
theorem extends_additive (s : Scope) (hs : s.AtEnd) {ts ts' : List Token}
    (h : ts.Forall₂ Token.Alike ts') :
    ExtendsExpr b (outcome (additive s ts))
      (outcome (additive (s.before b) (ts' ++ b.tokens))) := by
  rw [outcome_additive, outcome_additive]
  refine (operators_sums s).extends_bind (operators_sums _) rfl (extends_multiplicative s hs h)
    fun e e' rest rest' hread he hrest => ?_
  have hlt := outcome_lt hread
  refine (operators_sums s).extends_loop (operators_sums _) rfl (fun t ht => ?_) hrest
    (fun us us' hus hlike => ?_) he
  · simp [b.head_ne .plus (by simp) t ht, b.head_ne .minus (by simp) t ht]
  · exact extends_multiplicative s hs hlike
termination_by (ts.length, 8)
decreasing_by all_goals exact sooner (by omega)

/-- A product is read as before when something stands behind the text. -/
theorem extends_multiplicative (s : Scope) (hs : s.AtEnd) {ts ts' : List Token}
    (h : ts.Forall₂ Token.Alike ts') :
    ExtendsExpr b (outcome (multiplicative s ts))
      (outcome (multiplicative (s.before b) (ts' ++ b.tokens))) := by
  rw [outcome_multiplicative, outcome_multiplicative]
  refine (operators_products s).extends_bind (operators_products _) rfl (extends_unary s hs h)
    fun e e' rest rest' hread he hrest => ?_
  have hlt := outcome_lt hread
  refine (operators_products s).extends_loop (operators_products _) rfl (fun t ht => ?_) hrest
    (fun us us' hus hlike => ?_) he
  · simp [b.head_ne .star (by simp) t ht, b.head_ne .slash (by simp) t ht]
  · exact extends_unary s hs hlike
termination_by (ts.length, 7)
decreasing_by all_goals exact sooner (by omega)

/-- An operand with signs is read as before when something stands behind the text. -/
theorem extends_unary (s : Scope) (hs : s.AtEnd) {ts ts' : List Token}
    (h : ts.Forall₂ Token.Alike ts') :
    ExtendsExpr b (outcome (unary s ts)) (outcome (unary (s.before b) (ts' ++ b.tokens))) := by
  match ts, ts', h with
  | _, _, .nil => exact fun e rest hread => absurd (outcome_lt hread) (Nat.not_lt_zero _)
  | op :: more, op' :: more', .cons hop hmore =>
    have hcons : (op :: more).length = more.length + 1 := rfl
    rw [outcome_unary, List.cons_append, outcome_unary, hop.kind]
    by_cases hsign : (decide (op.kind = .minus) || decide (op.kind = .plus)) = true
    · rw [if_pos hsign, if_pos hsign]
      intro v rest hread hrest
      obtain ⟨⟨e, erest⟩, he, hread⟩ := exists_of_bind hread
      obtain ⟨w, hw, hread⟩ := exists_of_bind hread
      obtain ⟨rfl, rfl⟩ := Prod.mk.inj (Except.ok.inj hread)
      obtain ⟨e', rest', he', hlike, hrest'⟩ | ⟨-, hname, -⟩ :=
        extends_unary s hs hmore e _ he hrest
      · obtain ⟨-, w', hw', hwlike⟩ := applySign_alike hop hlike hw
        refine .inl ⟨w', rest', ?_, hwlike, hrest'⟩
        rw [he']
        dsimp only [Bind.bind, Except.bind]
        rw [hw']
      · exact absurd hname (applySign_alike hop rfl hw).1
    · rw [if_neg hsign, if_neg hsign]
      exact extends_primary s hs hop hmore
termination_by (ts.length, 6)
decreasing_by all_goals exact sooner (by omega)

/-- An operand is read as before when something stands behind the text. -/
theorem extends_primary (s : Scope) (hs : s.AtEnd) {t t' : Token} {rest rest' : List Token}
    (ht : t.Alike t') (h : rest.Forall₂ Token.Alike rest') :
    ExtendsExpr b (outcome (primary s t rest))
      (outcome (primary (s.before b) t' (rest' ++ b.tokens))) := by
  rw [outcome_primary, outcome_primary, ht.kind]
  cases hkind : t.kind <;> dsimp only
  case number =>
    rw [ht.word]
    cases Number.read? t.word with
    | none => exact .error
    | some v => exact .ok rfl h
  case string =>
    refine .ok ?_ h
    rw [ht.lexeme]
    rfl
  case color =>
    refine .ok ?_ h
    rw [ht.word]
    rfl
  case surface =>
    refine .ok ?_ h
    unfold surfaceOf
    rw [ht.word]
    rfl
  case closure =>
    refine .ok ?_ h
    rw [ht.word]
    rfl
  case lparen => exact .of_extends ((extends_expr s hs h).inside.closed fun _ _ he => he)
  case keyword =>
    rw [ht.word]
    split
    · exact .ok rfl h
    · split
      · refine .of_extends (.bind (extends_pinnedCall s hs h) fun c c' more more' hread hc hmore =>
          ?_)
        have hlt := outcome_lt hread
        exact extends_chainAfter s hs hc hmore
      · exact .error
  case identifier => exact extends_named s hs ht h
  all_goals exact .error
termination_by (rest.length + 1, 0)
decreasing_by all_goals exact sooner (by omega)

/-- A chain that begins with a call is read as before when something stands behind the text. -/
theorem extends_chainAfter (s : Scope) (hs : s.AtEnd) {c c' : Call} (hc : AlikeCall c c')
    {ts ts' : List Token} (h : ts.Forall₂ Token.Alike ts') :
    Extends b AlikeExpr (outcome (chainAfter s c ts))
      (outcome (chainAfter (s.before b) c' (ts' ++ b.tokens))) := by
  have hpeek := peek_dot b hs h
  rw [outcome_chainAfter, outcome_chainAfter]
  by_cases hdot : (s.peek ts).kind = .dot
  · rw [if_pos hdot, if_pos (hpeek.2 hdot)]
    have hstart := alikeChain_single hc
    refine .bind (extends_chainTail s hs hstart h) fun ch ch' rest rest' _ hch hrest => .ok ?_ hrest
    rw [AlikeExpr, Expr.unplaced_chain, Expr.unplaced_chain, hch]
  · rw [if_neg hdot, if_neg (mt hpeek.1 hdot)]
    refine .ok ?_ h
    rw [AlikeExpr, Expr.unplaced_call, Expr.unplaced_call, hc]
termination_by (ts.length, 5)
decreasing_by all_goals exact sooner (by omega)

/-- A call with a path before its name is read as before when something stands behind the text. -/
theorem extends_qualified (s : Scope) (hs : s.AtEnd) (first : String) (pos pos' : Pos)
    {ts ts' : List Token} (h : ts.Forall₂ Token.Alike ts') :
    Extends b AlikeCall
      (outcome (call s (splitPath first (dottedPath ts).1).1 (splitPath first (dottedPath ts).1).2
        pos
        (dottedPath ts).2))
      (outcome (call (s.before b) (splitPath first (dottedPath (ts' ++ b.tokens)).1).1
        (splitPath first (dottedPath (ts' ++ b.tokens)).1).2 pos'
          (dottedPath (ts' ++ b.tokens)).2)) := by
  intro c more hread
  have hlength := length_dottedPath ts
  obtain ⟨rest, hpath, hrest⟩ := dottedPath_alike (b := b) h fun u hu =>
    by simp [call_head hread u hu]
  rw [hpath]
  exact extends_call s hs _ _ pos pos' hrest c more hread
termination_by (ts.length, 5)
decreasing_by all_goals exact sooner (by omega)

/-- A path is read as before when something stands behind the text. -/
theorem extends_path (s : Scope) (hs : s.AtEnd) {t t' : Token} (ht : t.Alike t')
    {ts ts' : List Token} (h : ts.Forall₂ Token.Alike ts') :
    ExtendsExpr b (pathAt s t ts) (pathAt (s.before b) t' (ts' ++ b.tokens)) := by
  intro e more hread hmore
  unfold pathAt at hread
  split at hread
  · rename_i hparen
    have hdot : ∀ u ∈ (dottedPath ts).2.head?, u.kind ≠ .dot := by
      obtain ⟨c, hc, -⟩ := exists_of_bind hread
      exact fun u hu => by simp [call_head hc u hu]
    obtain ⟨rest, hpath, hrest⟩ := dottedPath_alike h hdot
    have hparen' : ((s.before b).peek (dottedPath (ts' ++ b.tokens)).2).kind = .lparen := by
      rw [hpath]
      obtain ⟨hnil, -⟩ | hpeek := peek_kind s hrest
      · rw [hnil] at hparen
        exact absurd hparen (hs.peek_ne .lparen (by simp))
      · exact hpeek.trans hparen
    unfold pathAt
    rw [if_pos hparen', ht.word]
    refine .inl (Extends.bind (extends_qualified s hs t.word t.pos t'.pos h)
      (fun c c' us us' hc hlike hus => ?_) e more hread)
    have hlt := outcome_lt hc
    have hle := length_dottedPath ts
    exact extends_chainAfter s hs hlike hus
  · rename_i hparen
    obtain ⟨rfl, rfl⟩ := Prod.mk.inj (Except.ok.inj hread)
    obtain ⟨rest, hpath, hrest⟩ := dottedPath_alike h hmore
    unfold pathAt
    rw [hpath]
    have hname : (if (dottedPath ts).1.isEmpty = true then Expr.ident t.word t.pos
        else .member (t.word :: (dottedPath ts).1) t.pos).IsName := by split <;> trivial
    have hlike : AlikeExpr (if (dottedPath ts).1.isEmpty = true then .ident t.word t.pos
        else .member (t.word :: (dottedPath ts).1) t.pos)
        (if (dottedPath ts).1.isEmpty = true then .ident t'.word t'.pos
        else .member (t'.word :: (dottedPath ts).1) t'.pos) := by
      rw [ht.word]
      split <;> rfl
    by_cases hparen' : ((s.before b).peek (rest ++ b.tokens)).kind = .lparen
    · -- The name is the last of the tokens, so it is the tokens behind that call it.
      obtain ⟨hnil, rfl⟩ | hpeek := peek_kind s hrest
      swap
      · exact absurd (hpeek.symm.trans hparen') hparen
      refine .inr ⟨hnil, hname, hparen', fun e' rest' hread' => ?_⟩
      rw [if_pos hparen'] at hread'
      obtain ⟨c, -, hread'⟩ := exists_of_bind hread'
      exact not_isName_of_chainAfter hread'
    · rw [if_neg hparen']
      exact .inl ⟨_, rest, rfl, hlike, hrest⟩
termination_by (ts.length, 6)
decreasing_by all_goals exact sooner (by omega)

/-- What begins with a name is read as before when something stands behind the text. -/
theorem extends_named (s : Scope) (hs : s.AtEnd) {t t' : Token} (ht : t.Alike t')
    {ts ts' : List Token} (h : ts.Forall₂ Token.Alike ts') :
    ExtendsExpr b (outcome (named s t ts)) (outcome (named (s.before b) t' (ts' ++ b.tokens))) := by
  match ts, ts', h with
  | _, _, .nil =>
    rw [List.nil_append, named_of_not_dot s [] (by simp) (hs.peek_ne .dot (by simp)),
      named_of_not_dot (s.before b) b.tokens (b.head_ne .dot (by simp)) (b.next_ne .dot (by simp))]
    exact extends_path s hs ht .nil
  | d :: more, d' :: more', .cons hd hmore =>
    by_cases hdot : d.kind = .dot
    · rw [named_of_dot s (d :: more) hdot, List.cons_append,
        named_of_dot _ (d' :: _) (hd.kind.trans hdot), ht.word]
      match more, more', hmore with
      | _, _, .nil =>
        -- The dot is the last of the tokens: nothing is read, or not to the dot.
        intro e rest hread hrest
        have hword : s.last.word ≠ "PI" := by
          rw [Token.word, hs.2]
          decide +kernel
        rw [if_neg (by simp [peekSecond, hword])] at hread
        split at hread
        · rw [outcome_chainTail_dot s _ d hdot] at hread
          cases hread
        · have hpath : dottedPath [d] = ([], [d]) := rfl
          rw [pathAt, hpath, if_neg (by simp [peek, hdot])] at hread
          obtain ⟨-, rfl⟩ := Prod.mk.inj (Except.ok.inj hread)
          exact absurd hdot (hrest d rfl)
      | u :: more, u' :: more', .cons hu hmore =>
        have hsecond : ((s.before b).peekSecond (d' :: (u' :: more' ++ b.tokens))).word =
            (s.peekSecond (d :: u :: more)).word :=
          hu.word
        have hvars : (s.before b).vars = s.vars := rfl
        rw [hsecond, hvars]
        split
        · exact .ok rfl hmore
        · split
          · refine .of_extends (.bind
              (extends_chainTail s hs (alikeChain_base t.word t.pos t'.pos)
                (.cons hd (.cons hu hmore)))
              fun ch ch' rest rest' _ hch hrest => ?_)
            refine .ok ?_ hrest
            rw [AlikeExpr, Expr.unplaced_chain, Expr.unplaced_chain, hch]
          · exact extends_path s hs ht (.cons hd (.cons hu hmore))
    · have hdot' : d'.kind ≠ .dot := hd.kind ▸ hdot
      rw [named_of_not_dot s (d :: more) (by simpa using hdot) hdot, List.cons_append,
        named_of_not_dot _ (d' :: _) (by simpa using hdot') hdot']
      exact extends_path s hs ht (.cons hd hmore)
termination_by (ts.length, 7)
decreasing_by all_goals exact sooner (by omega)

/-- A call of a namespace that is written out is read as before when something stands behind. -/
theorem extends_pinnedCall (s : Scope) (hs : s.AtEnd) {pos pos' : Pos} {ts ts' : List Token}
    (h : ts.Forall₂ Token.Alike ts') :
    Extends b AlikeCall (outcome (pinnedCall s pos ts))
      (outcome (pinnedCall (s.before b) pos' (ts' ++ b.tokens))) := by
  rw [outcome_pinnedCall, outcome_pinnedCall]
  refine .bind (extends_expect s .lparen h) fun paren paren' rest rest' hread _ hrest => ?_
  have hlt := outcome_lt hread
  dsimp only
  match rest, rest', hrest with
  | _, _, .nil => exact .error
  | ns :: more, ns' :: more', .cons hns hmore =>
    have hcons : (ns :: more).length = more.length + 1 := rfl
    rw [List.cons_append, pinned, pinned, hns.kind, hns.word]
    split
    · refine .bind (extends_expect s .comma hmore)
        fun comma comma' others others' hcomma _ hothers => ?_
      have hltc : others.length < more.length := outcome_lt hcomma
      refine .bind (extends_expect s .identifier hothers)
        fun name name' inner inner' hname hnamelike hinner => ?_
      have hltn : inner.length < others.length := outcome_lt hname
      rw [hnamelike.word]
      refine .bind (extends_call s hs _ _ _ name'.pos hinner) fun c c' rest rest' _ hc hrest => ?_
      exact extends_closed s (alikeCall_args hc _ pos pos') hrest
    · exact .error
termination_by (ts.length, 0)
decreasing_by all_goals exact sooner (by omega)

/-- A call is read as before when something stands behind the text. -/
theorem extends_call (s : Scope) (hs : s.AtEnd) (name : String) (qual : List String)
    (pos pos' : Pos) {ts ts' : List Token}
    (h : ts.Forall₂ Token.Alike ts') :
    Extends b AlikeCall (outcome (call s name qual pos ts))
      (outcome (call (s.before b) name qual pos' (ts' ++ b.tokens))) := by
  rw [outcome_call, outcome_call]
  refine .bind (extends_expect s .lparen h) fun paren paren' rest rest' hread _ hrest => ?_
  have hlt := outcome_lt hread
  refine .enter hs fun inner hinner => ?_
  have hargs : ExtendsInside b AlikeArgs (outcome (arguments inner [] [] rest))
      (outcome (arguments (inner.before b) [] [] (rest' ++ b.tokens))) :=
    extends_arguments inner hinner ⟨rfl, rfl⟩ hrest
  have hcall : ∀ v v', AlikeArgs v v' →
      AlikeCall { name, args := v.1, kwargs := v.2, ns := s.namespaceRef qual, pos }
        { name, args := v'.1, kwargs := v'.2, ns := s.namespaceRef qual, pos := pos' } :=
            fun v v' hv => by
    simp only [AlikeCall, CallOf.unplaced, hv.1, hv.2]
  exact hargs.closed hcall
termination_by (ts.length, 4)
decreasing_by all_goals exact sooner (by omega)

/-- Further arguments are read as before when something stands behind the parentheses. -/
theorem extends_further (s : Scope) (hs : s.AtEnd) {args args' : List Expr}
    {kwargs kwargs' : List Keyword} (hargs : AlikeArgs (args, kwargs) (args', kwargs'))
    {ts ts' : List Token} (h : ts.Forall₂ Token.Alike ts') :
    ExtendsInside b AlikeArgs (furtherArguments s args kwargs ts)
      (furtherArguments (s.before b) args' kwargs' (ts' ++ b.tokens)) := by
  match ts, ts', h with
  | _, _, .nil => exact nofun
  | c :: more, c' :: more', .cons hc hmore =>
    have hcons : (c :: more).length = more.length + 1 := rfl
    rw [List.cons_append, furtherArguments, furtherArguments, hc.kind]
    split
    · exact extends_arguments s hs hargs hmore
    · exact .of_extends (.ok hargs (.cons hc hmore))
termination_by (ts.length, 0)
decreasing_by all_goals exact sooner (by omega)

/-- Arguments are read as before when something stands behind the parentheses. -/
theorem extends_arguments (s : Scope) (hs : s.AtEnd) {args args' : List Expr}
    {kwargs kwargs' : List Keyword} (hargs : AlikeArgs (args, kwargs) (args', kwargs'))
    {ts ts' : List Token} (h : ts.Forall₂ Token.Alike ts') :
    ExtendsInside b AlikeArgs (outcome (arguments s args kwargs ts))
      (outcome (arguments (s.before b) args' kwargs' (ts' ++ b.tokens))) := by
  match ts, ts', h with
  | _, _, .nil => exact fun v t more hread => absurd (outcome_lt hread) (by simp)
  | t :: ts, t' :: ts', .cons ht hts =>
    have hcons : (t :: ts).length = ts.length + 1 := rfl
    rw [outcome_arguments, List.cons_append, outcome_arguments]
    dsimp only [peek, List.headD_cons]
    rw [ht.kind, hargs.isEmpty_args, hargs.isEmpty_kwargs, ht.word, hargs.any_name]
    split
    · exact .of_extends (.ok hargs (.cons ht hts))
    · match ts, ts', hts with
      | _, _, .nil =>
        -- One token alone is an argument with nothing behind it.
        intro v u more hread hu
        have hsecond : (s.peekSecond [t]).kind ≠ .colon := hs.kind_ne (by simp)
        simp only [hsecond, decide_false, Bool.and_false, Bool.false_and, Bool.not_false,
          Bool.true_and, Bool.false_or, Bool.false_eq_true, if_false] at hread
        split at hread
        · cases hread
        · obtain ⟨⟨e, rest⟩, he, hread⟩ := exists_of_bind hread
          obtain ⟨w, others, rfl, -⟩ := further_stop hread hu
          exact absurd (outcome_lt he) (by simp)
      | u :: ts, u' :: ts', .cons hu hts =>
        have hcons : (t :: u :: ts).length = ts.length + 2 := rfl
        have hsecond : ((s.before b).peekSecond (t' :: (u' :: ts' ++ b.tokens))).kind =
            (s.peekSecond (t :: u :: ts)).kind :=
          hu.kind
        rw [hsecond]
        split
        · exact .of_extends .error
        · split
          · split
            · exact .of_extends .error
            · refine (extends_expr s hs hts).argument (fun e rest v t more => further_stop)
                fun e e' rest rest' hread he hrest => ?_
              have hlt := outcome_lt hread
              exact extends_further s hs (hargs.named he t.word t.pos t'.pos) hrest
          · refine (extends_expr s hs (.cons ht (.cons hu hts))).argument
              (fun e rest v t more => further_stop)
              fun e e' rest rest' hread he hrest => ?_
            have hlt := outcome_lt hread
            exact extends_further s hs (hargs.positional he) hrest
termination_by (ts.length, 10)
decreasing_by all_goals exact sooner (by omega)

/-- The links of a chain are read as before when something stands behind the text. -/
theorem extends_chainTail (s : Scope) (hs : s.AtEnd) {ch ch' : Chain} (hch : AlikeChain ch ch')
    {ts ts' : List Token} (h : ts.Forall₂ Token.Alike ts') :
    Extends b AlikeChain (outcome (chainTail s ch ts))
      (outcome (chainTail (s.before b) ch' (ts' ++ b.tokens))) := by
  match ts, ts', h with
  | _, _, .nil =>
    rw [chainTail_end (by simp), List.nil_append, chainTail_end (b.head_ne .dot (by simp))]
    exact .ok hch .nil
  | dot :: more, dot' :: more', .cons hdot hmore =>
    have hcons : (dot :: more).length = more.length + 1 := rfl
    by_cases hkind : dot.kind = .dot
    · match more, more', hmore with
      | _, _, .nil =>
        rw [outcome_chainTail_dot s ch dot hkind]
        exact .error
      | t :: rest, t' :: rest', .cons ht hrest =>
        have hcons : (t :: rest).length = rest.length + 1 := rfl
        rw [List.cons_append, List.cons_append, outcome_chainTail s ch dot t rest hkind,
          outcome_chainTail _ ch' dot' t' _ (hdot.kind.trans hkind), ht.isWord, ht.kind]
        split
        · refine .bind (extends_pinnedCall s hs hrest) fun c c' us us' hread hc hus => ?_
          have hlt := outcome_lt hread
          exact extends_chainTail s hs (alikeChain_link hch hc) hus
        · split
          · exact .error
          · match rest, rest', hrest with
            | _, _, .nil =>
              rw [if_neg (by simp [hs.peek_ne .lparen])]
              intro z more hread
              obtain ⟨c, hc, -⟩ := exists_of_bind hread
              exact absurd (outcome_lt hc) (Nat.not_lt_zero _)
            | left :: rest, left' :: rest', .cons hleft hrest =>
              have hpeek : ((s.before b).peek (left' :: rest' ++ b.tokens)).kind =
                  (s.peek (left :: rest)).kind :=
                hleft.kind
              have hdrop : (List.drop 1 (left :: rest)).length = rest.length := rfl
              have hsize : (left :: rest).length = rest.length + 1 := rfl
              rw [ht.word, hpeek]
              split
              · refine .bind (extends_outTarget s hs t.pos t'.pos hrest) fun e e' us us' _ he hus =>
                  ?_
                have hdot' := peek_dot b hs hus
                dsimp only
                by_cases hmid : (s.peek us).kind = .dot
                · rw [if_pos hmid]
                  exact .error
                · rw [if_neg hmid, if_neg (mt hdot'.1 hmid)]
                  exact .ok (alikeChain_out hch he) hus
              · refine .bind (extends_qualified s hs t.word t.pos t'.pos (.cons hleft hrest))
                  fun c c' us us' hread hc hus => ?_
                have hlt := outcome_lt hread
                have hlength := length_dottedPath (left :: rest)
                exact extends_chainTail s hs (alikeChain_link hch hc) hus
    · have hkind' : dot'.kind ≠ .dot := hdot.kind ▸ hkind
      rw [chainTail_end (by simpa using hkind), List.cons_append,
        chainTail_end (by simpa using hkind')]
      exact .ok hch (.cons hdot hmore)
termination_by (ts.length, 3)
decreasing_by all_goals exact sooner (by omega)

/-- The surface a chain is written to is read as before when something stands behind the text. -/
theorem extends_outTarget (s : Scope) (hs : s.AtEnd) (pos pos' : Pos) {ts ts' : List Token}
    (h : ts.Forall₂ Token.Alike ts') :
    Extends b AlikeExpr (outcome (outTarget s pos ts))
      (outcome (outTarget (s.before b) pos' (ts' ++ b.tokens))) := by
  match ts, ts', h with
  | _, _, .nil =>
    rw [outcome_outTarget, if_neg (hs.peek_ne .rparen (by simp))]
    intro e rest hread
    obtain ⟨x, hx, -⟩ := exists_of_bind hread
    exact absurd (outcome_lt hx) (Nat.not_lt_zero _)
  | t :: ts, t' :: ts', .cons ht hts =>
    have hpeek : ((s.before b).peek (t' :: ts' ++ b.tokens)).kind = (s.peek (t :: ts)).kind :=
      ht.kind
    rw [outcome_outTarget, outcome_outTarget, hpeek]
    split
    · exact .ok rfl hts
    · exact (extends_expr s hs (.cons ht hts)).inside.closed fun _ _ he => he
termination_by (ts.length, 10)
decreasing_by all_goals exact sooner (by omega)

end

end Parser

end EffectChain
