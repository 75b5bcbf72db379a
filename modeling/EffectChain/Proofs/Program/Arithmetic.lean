import EffectChain.Proofs.Program.Outcome
import Mathlib.Data.List.Basic

/-!
# EffectChain.Proofs.Program.Arithmetic

Arithmetic in arguments.

The parser computes with numbers while it reads them.  An arithmetic expression is a tree
(`Arith`) that has a value, computed from the left to the right (`Arith.value`), and is spelled
by tokens with parentheses where a weaker operator is an operand of a stronger one, or the right
operand of an equally strong one, and anywhere else where one likes (`Arith.Spelled`).

* `Arith.spelled_tokens` — every expression has a spelling with no other parentheses;
* `Arith.Spelled.reads` — what the productions make of a spelling;
* `argument_folds` — in an argument list it is read as the number that is its value.
-/

namespace EffectChain

/-! ## expressions and their values -/

/-- An operator between two operands. -/
inductive Arith.Operator where
  | add
  | sub
  | mul
  | div
  deriving DecidableEq, Repr

namespace Arith.Operator

def kind : Operator → TokenKind
  | add => .plus
  | sub => .minus
  | mul => .star
  | div => .slash

/-- How strong the operator binds: signs are stronger than any. -/
def level : Operator → Nat
  | add | sub => 0
  | mul | div => 1

theorem level_cases (op : Operator) :
    op.level = 0 ∧ (op.kind = .plus ∨ op.kind = .minus) ∨ op.level = 1 ∧
    (op.kind = .star ∨ op.kind = .slash) := by
  cases op <;> simp [level, kind]

/-- The result, where the operator stands at a place; nothing is divided by what equals zero. -/
def apply (op : Operator) (pos : Pos) (a b : Float) : Except SyntaxError Float :=
  match op with
  | add => .ok (a + b)
  | sub => .ok (a - b)
  | mul => .ok (a * b)
  | div => if b == 0 then .error ⟨.divisionByZero, pos, []⟩ else .ok (a / b)

end Arith.Operator

/-- An arithmetic expression over numbers as they are written. -/
inductive Arith where
  | number (digits : Bytes) (pos : Pos)
  | sign (negative : Bool) (x : Arith)
  | binary (op : Arith.Operator) (pos : Pos) (x y : Arith)
  deriving DecidableEq, Repr

namespace Arith

/-- The value, or the error at the first place where there is none: at a number that is none, or at
an operator that divides by zero. -/
def value : Arith → Except SyntaxError Float
  | number digits pos =>
    match Number.read? (Bytes.toString digits) with
    | some v => .ok v
    | none => .error ⟨.invalidNumber digits, pos, []⟩
  | sign negative x => do
    let v ← x.value
    return if negative then -v else v
  | binary op pos x y => do
    let a ← x.value
    let b ← y.value
    op.apply pos a b

/-- The expression is spelled by the tokens, with parentheses to a depth, as an operand that binds
at least as strong as a level.  The operands of an operator to its left are of its own level, and
those to its right of the next one. -/
inductive Spelled : (level : Nat) → Arith → (depth : Nat) → List Token → Prop
  | number (level : Nat) (digits : Bytes) (pos : Pos) : Spelled level (.number digits pos) 0
      [⟨.number, digits, pos⟩]
  | sign {level depth : Nat} {negative : Bool} {x : Arith} {t : Token} {ts : List Token}
      (hlevel : level ≤ 2)
      (ht : t.kind = if negative then .minus else .plus) (h : Spelled 2 x depth ts) :
      Spelled level (.sign negative x) depth (t :: ts)
  | binary {level m n : Nat} (op : Operator) (t : Token) {x y : Arith} {ts ts' : List Token}
      (hlevel : level ≤ op.level)
      (ht : t.kind = op.kind) (hx : Spelled op.level x m ts) (hy : Spelled (op.level + 1) y n ts') :
      Spelled level (.binary op t.pos x y) (max m n) (ts ++ t :: ts')
  | parens (level : Nat) {depth : Nat} {x : Arith} {left right : Token} {ts : List Token}
      (hleft : left.kind = .lparen)
      (hright : right.kind = .rparen) (h : Spelled 0 x depth ts) :
      Spelled level x (depth + 1) (left :: ts ++ [right])

/-! ### a spelling for each -/

/-- The tokens, in parentheses if `weak`. -/
def wrap (weak : Bool) (ts : List Token) : List Token :=
  if weak then ⟨.lparen, Bytes.ofString "(", {}⟩ :: ts ++
    [⟨.rparen, Bytes.ofString ")", {}⟩] else ts

/-- The tokens of an expression at a level, with parentheses where they are needed only. -/
def tokens : (level : Nat) → Arith → List Token
  | _, number digits pos => [⟨.number, digits, pos⟩]
  | level, sign negative x =>
    wrap (2 < level) (⟨if negative then .minus else .plus, [], {}⟩ :: x.tokens 2)
  | level, binary op pos x y =>
    wrap (op.level < level) (x.tokens op.level ++ ⟨op.kind, [], pos⟩ :: y.tokens (op.level + 1))

/-- What is spelled at a level is spelled at any, in parentheses where it must be. -/
theorem spelled_wrap {weak : Bool} {level depth : Nat} {x : Arith} {ts : List Token}
    (hweak : weak = true → Spelled 0 x depth ts)
    (hstrong : weak = false → Spelled level x depth ts) :
    ∃ depth, Spelled level x depth (wrap weak ts) := by
  cases weak with
  | true => exact ⟨_, .parens level rfl rfl (hweak rfl)⟩
  | false => exact ⟨_, hstrong rfl⟩

/-- Every expression is spelled so. -/
theorem spelled_tokens (level : Nat) (x : Arith) :
    ∃ depth, Spelled level x depth (x.tokens level) := by
  induction x generalizing level with
  | number digits pos => exact ⟨0, .number level digits pos⟩
  | sign negative x ih =>
    obtain ⟨depth, h⟩ := ih 2
    exact spelled_wrap (fun _ => .sign (by omega) rfl h) fun hlevel =>
      .sign (by simpa using hlevel) rfl h
  | binary op pos x y ihx ihy =>
    obtain ⟨m, hx⟩ := ihx op.level
    obtain ⟨n, hy⟩ := ihy (op.level + 1)
    exact spelled_wrap (fun _ => .binary op ⟨op.kind, [], pos⟩ (Nat.zero_le _) rfl hx hy)
        fun hlevel =>
      .binary op ⟨op.kind, [], pos⟩ (by simpa using hlevel) rfl hx hy

end Arith

/-! ## what is read -/

namespace Parser

open Scope

/-- A production reads a number with the value and goes on with it, or it stops with the error. -/
def Folds {α : Type} (v : Except SyntaxError Float) (r : Except SyntaxError α)
    (next : Expr → Except SyntaxError α) :
    Prop :=
  match v with
  | .ok v => ∃ raw pos, r = next (.number v raw pos)
  | .error e => r = .error e

namespace Folds

variable {α β : Type} {v : Except SyntaxError Float} {r : Except SyntaxError α}
    {next next' : Expr → Except SyntaxError α}

/-- What is done behind the production is done behind the number. -/
theorem bind (h : Folds v r next) (f : α → Except SyntaxError β) :
    Folds v (r >>= f) fun e => next e >>= f := by
  cases v with
  | error e => exact congrArg (· >>= f) h
  | ok v =>
    obtain ⟨raw, pos, rfl⟩ := h
    exact ⟨raw, pos, rfl⟩

theorem congr (h : Folds v r next) (hnext : ∀ e, next e = next' e) : Folds v r next' := by
  obtain rfl : next = next' := funext hnext
  exact h

/-- A value that is computed from another one, by a step that does so with numbers. -/
theorem andThen {f : Float → Except SyntaxError Float} (h : Folds v r next)
    (hf : ∀ x raw pos, Folds (f x) (next (.number x raw pos)) next') : Folds (v >>= f) r next' := by
  cases v with
  | error e => exact h
  | ok x =>
    obtain ⟨raw, pos, rfl⟩ := h
    exact hf x raw pos

end Folds

/-- A sign folds into the number behind it. -/
theorem folds_applySign {t : Token} {negative : Bool}
    (ht : t.kind = if negative then .minus else .plus) (v : Float) (raw : String) (pos : Pos)
    (rest : List Token) :
    Folds (.ok (if negative then -v else v)) (applySign t (.number v raw pos) >>= fun e =>
      .ok (e, rest))
      fun e => .ok (e, rest) := by
  unfold applySign
  dsimp only
  cases negative with
  | false =>
    have hplus : t.kind = .plus := ht
    rw [if_pos hplus]
    exact ⟨raw, pos, rfl⟩
  | true =>
    have hminus : ¬ t.kind = .plus := by
      rw [ht]
      decide
    rw [if_neg hminus]
    exact ⟨_, _, rfl⟩

/-- An operator folds two numbers. -/
theorem folds_fold {op : Arith.Operator} {t : Token} (ht : t.kind = op.kind) (a b : Float)
    (raw raw' : String) (pos pos' : Pos) (next : Expr → Except SyntaxError (Expr × List Token)) :
    Folds (op.apply t.pos a b) (fold t (.number a raw pos) (.number b raw' pos') >>= next)
      next := by
  unfold fold
  dsimp only
  rw [ht]
  cases op with
  | div =>
    dsimp only [Arith.Operator.kind, Arith.Operator.apply]
    split
    · rfl
    · exact ⟨_, _, rfl⟩
  | _ => exact ⟨_, _, rfl⟩

/-- Where no operator of the weaker ones' operands follows. -/
def EndsProduct (rest : List Token) : Prop := ∀ t ∈ rest.head?, t.kind ≠ .star ∧ t.kind ≠ .slash

/-- What the productions of a level and of the weaker ones make of tokens. -/
structure ReadAt (s : Scope) (level : Nat) (x : Arith) (ts : List Token) : Prop where
  operand : 2 ≤ level → ∀ rest, Folds x.value (outcome (unary s (ts ++ rest))) fun e =>
    .ok (e, rest)
  product : 1 ≤ level → ∀ rest,
    Folds x.value (outcome (multiplicative s (ts ++ rest))) fun e => outcome (products s e rest)
  sum : ∀ rest, EndsProduct rest →
    Folds x.value (outcome (additive s (ts ++ rest))) fun e => outcome (sums s e rest)

namespace ReadAt

variable {s : Scope} {level : Nat} {x : Arith} {ts : List Token}

theorem of_sum (hlevel : level ≤ 0) (h : ∀ rest, EndsProduct rest →
    Folds x.value (outcome (additive s (ts ++ rest))) fun e => outcome (sums s e rest)) :
      ReadAt s level x ts :=
  ⟨fun hle => by omega, fun hle => by omega, h⟩

/-- A product is read at the levels of sums and products. -/
theorem of_product (hlevel : level ≤ 1) (h : ∀ rest,
    Folds x.value (outcome (multiplicative s (ts ++ rest))) fun e => outcome (products s e rest)) :
    ReadAt s level x ts := by
  refine ⟨fun hle => by omega, fun _ => h, fun rest hrest => ?_⟩
  rw [outcome_additive]
  exact ((h rest).bind _).congr fun e => by rw [products_end hrest]; rfl

/-- An operand is read at every level. -/
theorem of_operand
    (h : ∀ rest, Folds x.value (outcome (unary s (ts ++ rest))) fun e => .ok (e, rest)) :
    ReadAt s level x ts := by
  have hproduct : ∀ rest,
      Folds x.value (outcome (multiplicative s (ts ++ rest))) fun e =>
          outcome (products s e rest) := fun rest => by
    rw [outcome_multiplicative]
    exact (h rest).bind _
  exact ⟨fun _ => h, fun _ => hproduct, (of_product (Nat.zero_le 1) hproduct).sum⟩

end ReadAt

end Parser

open EffectChain.Parser in
/-- By induction on the spelling: an operand is read by the production of its level. -/
theorem Arith.Spelled.reads {level depth : Nat} {x : Arith} {ts : List Token}
    (h : Spelled level x depth ts) (s : Parser.Scope) (hdepth : s.depth + depth ≤ s.maxDepth) :
    ReadAt s level x ts := by
  induction h generalizing s with
  | number level digits pos =>
    refine .of_operand fun rest => ?_
    rw [List.cons_append, List.nil_append, outcome_unary, if_neg (by simp), outcome_primary_number]
    unfold Folds value
    cases Number.read? (Bytes.toString digits) with
    | none => rfl
    | some v => exact ⟨_, _, rfl⟩
  | @sign level depth negative x t ts hlevel ht h ih =>
    refine .of_operand fun rest => ?_
    have hsign : (decide (t.kind = .minus) || decide (t.kind = .plus)) = true := by
      cases negative <;> simp [ht]
    rw [List.cons_append, outcome_unary, if_pos hsign]
    refine .andThen (((ih s hdepth).operand (Nat.le_refl 2) rest).bind _) fun v raw pos => ?_
    exact folds_applySign ht v raw pos rest
  | @binary level m n op t x y ts ts' hlevel ht hx hy ihx ihy =>
    have hleft := ihx s (by omega)
    have hright := ihy s (by omega)
    obtain ⟨hop, hkind⟩ | ⟨hop, hkind⟩ := op.level_cases
    · rw [hop] at hleft hright hlevel
      refine .of_sum hlevel fun rest hrest => ?_
      have hweak : (decide (t.kind = .plus) || decide (t.kind = .minus)) = true := by
        simpa [ht] using hkind
      have hends : EndsProduct (t :: (ts' ++ rest)) := by
        rintro _ ⟨⟩
        rw [ht]
        rcases hkind with hk | hk <;> simp [hk]
      rw [List.append_assoc, List.cons_append]
      refine .andThen (hleft.sum _ hends) fun a raw pos => ?_
      rw [outcome_sums, if_pos hweak]
      refine .andThen ((hright.product (Nat.le_refl 1) rest).bind _) fun b raw' pos' => ?_
      rw [products_end hrest]
      exact folds_fold ht a b raw raw' pos pos' _
    · rw [hop] at hleft hright hlevel
      refine .of_product hlevel fun rest => ?_
      have hstrong : (decide (t.kind = .star) || decide (t.kind = .slash)) = true := by
        simpa [ht] using hkind
      rw [List.append_assoc, List.cons_append]
      refine .andThen (hleft.product (Nat.le_refl 1) _) fun a raw pos => ?_
      rw [outcome_products, if_pos hstrong]
      refine .andThen ((hright.operand (Nat.le_refl 2) rest).bind _) fun b raw' pos' => ?_
      exact folds_fold ht a b raw raw' pos pos' _
  | @parens level depth x left right ts hleft hright h ih =>
    refine .of_operand fun rest => ?_
    rw [List.append_assoc, List.cons_append, List.cons_append, outcome_unary,
      if_neg (by simp [hleft]), outcome_primary_lparen _ _ _ hleft, outcome_expr]
    rw [enter_of_le (by omega)]
    have hends : EndsProduct (right :: rest) := by
      rintro _ ⟨⟩
      simp [hright]
    have hinner :=
      (ih { s with depth := s.depth + 1 } (by dsimp only; omega)).sum (right :: rest) hends
    refine (hinner.bind (closed s)).congr fun e => ?_
    rw [sums_end (by simp [hright])]
    exact closed_eq s e right rest hright

/-! ## arguments -/

namespace Parser

open Scope

/-- An expression before a comma or a closing parenthesis. -/
theorem folds_expr {s : Scope} {x : Arith} {depth : Nat} {ts : List Token}
    (hx : x.Spelled 0 depth ts) (hdepth : s.depth + 1 + depth ≤ s.maxDepth) {close : Token}
    (hclose : close.kind = .comma ∨ close.kind = .rparen) (rest : List Token) :
    Folds x.value (outcome (expr s (ts ++ close :: rest))) fun e => .ok (e, close :: rest) := by
  have hends : EndsProduct (close :: rest) := by
    rintro _ ⟨⟩
    rcases hclose with h | h <;> simp [h]
  rw [outcome_expr, enter_of_le (by omega)]
  refine ((hx.reads { s with depth := s.depth + 1 } (by dsimp only; omega)).sum _ hends).congr
    fun e => ?_
  exact sums_end (by rcases hclose with h | h <;> simp [h]) _ e

end Parser

/-- A spelling begins with a number, a sign or a parenthesis. -/
theorem Arith.Spelled.head {level depth : Nat} {x : Arith} {ts : List Token}
    (h : x.Spelled level depth ts) :
    ∃ t rest, ts = t :: rest ∧ t.kind ∈ [.number, .plus, .minus, .lparen] := by
  induction h with
  | number level digits pos => exact ⟨_, _, rfl, by simp⟩
  | @sign _ _ negative _ _ _ _ ht => exact ⟨_, _, rfl, by cases negative <;> simp [ht]⟩
  | binary _ _ _ _ _ _ ihx =>
    obtain ⟨t, rest, rfl, ht⟩ := ihx
    exact ⟨t, _, rfl, ht⟩
  | parens level hleft => exact ⟨_, _, rfl, by simp [hleft]⟩

namespace Parser

variable {s : Scope} {x : Arith} {depth : Nat} {ts : List Token}

/-- An argument without a name. -/
theorem folds_positional (hx : x.Spelled 0 depth ts) (hdepth : s.depth + 1 + depth ≤ s.maxDepth)
    {close : Token} (hclose : close.kind = .comma ∨ close.kind = .rparen) (rest : List Token)
    (args : List Expr) :
    Folds x.value (outcome (arguments s args [] (ts ++ close :: rest))) fun e =>
      furtherArguments s (args ++ [e]) [] (close :: rest) := by
  have hexpr := folds_expr hx hdepth hclose rest
  obtain ⟨t, more, rfl, ht⟩ := hx.head
  have hpeek : s.peek (t :: more ++ close :: rest) = t := rfl
  have hparen : ¬ t.kind = .rparen := fun h => by simp [h] at ht
  have hname : ¬ t.kind = .identifier := fun h => by simp [h] at ht
  rw [outcome_arguments]
  simp only [hpeek, hparen, hname, decide_false, Bool.false_and, if_false, Bool.not_false,
    Bool.true_and, List.isEmpty_nil, Bool.not_true, Bool.or_false, Bool.false_eq_true]
  exact hexpr.bind _

/-- An argument with a name that is not given yet. -/
theorem folds_named (hx : x.Spelled 0 depth ts) (hdepth : s.depth + 1 + depth ≤ s.maxDepth)
    {close : Token} (hclose : close.kind = .comma ∨ close.kind = .rparen) (rest : List Token)
    {kwargs : List Keyword} {label colon : Token} (hlabel : label.kind = .identifier)
    (hcolon : colon.kind = .colon) (hnew : ∀ k ∈ kwargs, k.name ≠ label.word) :
    Folds x.value (outcome (arguments s [] kwargs (label :: colon :: ts ++ close :: rest))) fun e =>
      furtherArguments s [] (kwargs ++ [⟨label.word, e, label.pos⟩]) (close :: rest) := by
  have hpeek : s.peek (label :: colon :: ts ++ close :: rest) = label := rfl
  have hsecond : s.peekSecond (label :: colon :: ts ++ close :: rest) = colon := rfl
  have hany : kwargs.any (fun k => k.name = label.word) = false := by simpa using hnew
  rw [outcome_arguments]
  simp only [hpeek, hsecond, hlabel, hcolon, hany]
  exact (folds_expr hx hdepth hclose rest).bind _

end Parser

open EffectChain.Parser in
/-- Arithmetic in an argument list is one number.  Where an argument is read, with a name or
without, a spelling of an expression that is not nested too deep gives a number with the value of
the expression, and what stands behind it is read next; or it gives the error at the first place
where the expression has no value, at a number that is none or at an operator that divides by what
equals zero. -/
theorem argument_folds {s : Scope} {x : Arith} {depth : Nat} {ts : List Token}
    (hx : x.Spelled 0 depth ts) (hdepth : s.depth + 1 + depth ≤ s.maxDepth) {close : Token}
    (hclose : close.kind = .comma ∨ close.kind = .rparen) (rest : List Token) :
    (∀ args, Folds x.value (outcome (arguments s args [] (ts ++ close :: rest))) fun e =>
      furtherArguments s (args ++ [e]) [] (close :: rest)) ∧
    ∀ kwargs label colon, label.kind = .identifier → colon.kind = .colon →
    (∀ k ∈ kwargs, k.name ≠ label.word) →
      Folds x.value (outcome (arguments s [] kwargs (label :: colon :: ts ++ close :: rest)))
        fun e =>
        furtherArguments s [] (kwargs ++ [⟨label.word, e, label.pos⟩]) (close :: rest) :=
  ⟨folds_positional hx hdepth hclose rest,
    fun _ _ _ hlabel hcolon hnew => folds_named hx hdepth hclose rest hlabel hcolon hnew⟩

/-! ## a sum in parentheses, and a number that is none -/

/-- `(1 + 2) * 3`. -/
def tripled : Arith :=
  .binary .mul ⟨1, 9⟩ (.binary .add ⟨1, 4⟩ (.number (Bytes.ofString "1") ⟨1, 2⟩)
    (.number (Bytes.ofString "2") ⟨1, 6⟩))
    (.number (Bytes.ofString "3") ⟨1, 11⟩)

def tripledTokens : List Token :=
  let token (col : Nat) (kind : TokenKind) (word : String) : Token :=
    ⟨kind, Bytes.ofString word, ⟨1, col⟩⟩
  [token 1 .lparen "(", token 2 .number "1", token 4 .plus "+", token 6 .number "2",
    token 7 .rparen ")", token 9 .star "*", token 11 .number "3"]

theorem tripled_spelled : tripled.Spelled 0 1 tripledTokens := by
  have hsum : (Arith.binary .add ⟨1, 4⟩ (.number (Bytes.ofString "1") ⟨1, 2⟩)
      (.number (Bytes.ofString "2") ⟨1, 6⟩)).Spelled
      1 1 (tripledTokens.take 5) :=
    .parens 1 rfl rfl (.binary .add ⟨.plus, Bytes.ofString "+", ⟨1, 4⟩⟩ (Nat.le_refl 0)
      rfl (.number ..) (.number ..))
  have hproduct : (Arith.binary .mul ⟨1, 9⟩ _ (.number (Bytes.ofString "3") ⟨1, 11⟩)).Spelled 0 1
      tripledTokens :=
    .binary .mul ⟨.star, Bytes.ofString "*", ⟨1, 9⟩⟩ (Nat.zero_le 1) rfl hsum (.number ..)
  exact hproduct

/-- Behind another argument, and as one with a name. -/
theorem tripled_folds :
    let s : Parser.Scope := { last := ⟨.endOfInput, [], ⟨1, 13⟩⟩, maxDepth := 64 }
    let close : Token := ⟨.rparen, Bytes.ofString ")", ⟨1, 12⟩⟩
    let label : Token := ⟨.identifier, Bytes.ofString "scale", {}⟩
    let colon : Token := ⟨.colon, Bytes.ofString ":", {}⟩
    Parser.Folds tripled.value
        (Parser.outcome (Parser.arguments s [.bool true {}] [] (tripledTokens ++ [close])))
        (fun e => Parser.furtherArguments s [.bool true {}, e] [] [close]) ∧
      Parser.Folds tripled.value
        (Parser.outcome (Parser.arguments s [] [] (label :: colon :: tripledTokens ++ [close])))
        (fun e => Parser.furtherArguments s [] [⟨label.word, e, label.pos⟩] [close]) := by
  intro s close label colon
  have hdepth : s.depth + 1 + 1 ≤ s.maxDepth := by decide
  have hclose : close.kind = .comma ∨ close.kind = .rparen := .inr rfl
  have hfolds := argument_folds tripled_spelled hdepth hclose []
  exact ⟨hfolds.1 [.bool true {}], hfolds.2 [] label colon rfl rfl (by simp)⟩

def hugeSource : Bytes := .ofString "search s ink(1e400).out(o0)"

def hugeToken : Token := ⟨.number, Bytes.ofString "1e400", ⟨1, 14⟩⟩

def hugeClose : Token := ⟨.rparen, Bytes.ofString ")", ⟨1, 19⟩⟩

def hugeTokens : List Token :=
  let token (col : Nat) (kind : TokenKind) (word : String) : Token :=
    ⟨kind, Bytes.ofString word, ⟨1, col⟩⟩
  [token 1 .keyword "search", token 8 .identifier "s", token 10 .identifier "ink",
    token 13 .lparen "(", hugeToken, hugeClose, token 20 .dot ".", token 21 .identifier "out",
    token 24 .lparen "(", token 25 .surface "o0", token 27 .rparen ")", token 28 .endOfInput ""]

/-- A number token need not be a number: one that is too large is refused, and not as a division. -/
theorem huge_number_refused : Token.scan hugeSource = .ok hugeTokens ∧
    hugeTokens.take 6 = hugeTokens.take 4 ++ [hugeToken, hugeClose] ∧
    (Arith.number hugeToken.lexeme hugeToken.pos).Spelled 0 0 [hugeToken] ∧
    Parser.outcome (Parser.arguments { last := ⟨.endOfInput, [], ⟨1, 28⟩⟩, maxDepth := 64 } [] []
      [hugeToken, hugeClose]) =
      .error ⟨.invalidNumber hugeToken.lexeme, hugeToken.pos, []⟩ ∧
    (SyntaxCause.invalidNumber hugeToken.lexeme).code ≠ SyntaxCause.divisionByZero.code := by
  have hread : Number.read? (Bytes.toString hugeToken.lexeme) = none :=
    Option.isNone_iff_eq_none.1 (by decide +kernel)
  have hspelled : (Arith.number hugeToken.lexeme hugeToken.pos).Spelled 0 0 [hugeToken] :=
    .number ..
  have hvalue : (Arith.number hugeToken.lexeme hugeToken.pos).value =
      .error ⟨.invalidNumber hugeToken.lexeme, hugeToken.pos, []⟩ := by rw [Arith.value, hread]
  refine ⟨by decide +kernel, by decide +kernel, hspelled, ?_, by decide⟩
  have hclose : hugeClose.kind = .comma ∨ hugeClose.kind = .rparen := .inr rfl
  have hfolds :=
    Parser.folds_positional (s := { last := ⟨.endOfInput, [], ⟨1, 28⟩⟩, maxDepth := 64 })
    hspelled (by decide) hclose [] []
  rwa [hvalue] at hfolds

end EffectChain
