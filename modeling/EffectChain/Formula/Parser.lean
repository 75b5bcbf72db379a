import EffectChain.Formula.Basic
import EffectChain.Formula.Token

/-!
# EffectChain.Formula.Parser

From the words of a formula to its parsed form.  Operators bind by strength; the
power operator groups to the right, all others to the left, and comparisons
chain: `a < b < c` holds when `a < b` and `b < c` do.

Every parser leaves fewer tokens than it was given, which is why it ends.
-/

namespace EffectChain.Formula

/-- The `n` tokens at hand became fewer: a value and what is left. -/
structure Taken (α : Type) (n : Nat) where
  value : α
  rest : List Token
  shorter : rest.length < n

namespace Parser

/-! ## operators -/

/-- A binary operator, how strongly it binds, and whether it groups to the right. -/
def binary? : Token → Option (Binary × Nat × Bool)
  | .sign "or" | .sign "||" => some (.or, 10, false)
  | .sign "and" | .sign "&&" => some (.and, 15, false)
  | .sign "==" => some (.equal .any, 20, false)
  | .sign "!=" => some (.differ .any, 20, false)
  | .sign "<" => some (.lt, 20, false)
  | .sign ">" => some (.gt, 20, false)
  | .sign "<=" => some (.le, 20, false)
  | .sign ">=" => some (.ge, 20, false)
  | .sign "+" => some (.add, 30, false)
  | .sign "-" => some (.sub, 30, false)
  | .sign "*" => some (.mul, 60, false)
  | .sign "/" => some (.div, 60, false)
  | .sign "%" => some (.mod, 60, false)
  | .sign "**" | .sign "^" => some (.pow, 100, true)
  | _ => none

def isComparison : Binary → Bool
  | .lt | .le | .gt | .ge => true
  | _ => false

/-- A sign before an operand and how strongly it binds. -/
def unary? : Token → Option (Unary × Nat)
  | .sign "not" | .sign "!" => some (.not, 50)
  | .sign "-" => some (.minus, 90)
  | .sign "+" => some (.plus, 90)
  | _ => none

/-! ## literals -/

/-- An integer that fits 64 bits. -/
def integer? (base : Nat) (ds : List Char) : Option Formula :=
  if ds.isEmpty then none
  else
    let n := Number.digitsValue base (ds.map Number.hexDigitValue)
    if n < 0x8000000000000000 then some (.int n) else none

/-- The number a word stands for; underscores do not count. -/
def number? (s : String) : Option Formula :=
  let cs := (s.toList.filter (· ≠ '_'))
  match cs with
  | '0' :: c :: ds =>
    if c = 'x' || c = 'X' then
      if ds.all Number.isHexDigit then integer? 16 ds else none
    else if cs.any fun c => c = '.' || c = 'e' || c = 'E' then decimal cs
    else if c = 'b' || c = 'B' then integer? 2 ds
    else if c = 'o' || c = 'O' then integer? 8 ds
    else integer? 10 cs
  | _ => if cs.any fun c => c = '.' || c = 'e' || c = 'E' then decimal cs else integer? 10 cs
where
  decimal (cs : List Char) : Option Formula := (Number.read? (String.ofList cs)).map .float

/-! ## grammar -/

/-- The next token, which has to be the sign `s`. -/
def expect (s : String) (ts : List Token) : Option (Taken Unit ts.length) :=
  match ts with
  | t :: rest => if t = .sign s then some ⟨(), rest, by simp⟩ else none
  | [] => none

mutual

/-- An expression whose operators bind at least as strongly as `strength`. -/
def expr (strength : Nat) (ts : List Token) : Option (Taken Formula ts.length) := do
  let first ← primary ts
  let all ← operators strength first.value first.rest
  if strength = 0 then do
    let c ← choices all.value all.rest
    return ⟨c.value, c.rest, by
      have := first.shorter; have := all.shorter; have := c.shorter; omega⟩
  else return ⟨all.value, all.rest, by have := first.shorter; have := all.shorter; omega⟩
termination_by (ts.length, 9)
decreasing_by
  · exact Prod.Lex.right _ (by decide)
  · exact Prod.Lex.left _ _ first.shorter
  · exact Prod.Lex.left _ _ (by have := first.shorter; have := all.shorter; omega)

/-- The operators after a left operand. -/
def operators (strength : Nat) (left : Formula) (ts : List Token) :
    Option (Taken Formula (ts.length + 1)) :=
  match ts with
  | [] => some ⟨left, [], by simp⟩
  | t :: rest =>
    match binary? t with
    | none => some ⟨left, t :: rest, by simp⟩
    | some (op, s, toRight) =>
      if s < strength then some ⟨left, t :: rest, by simp⟩
      else if isComparison op then do
        let c ← comparisons none left op rest
        let more ← operators strength c.value c.rest
        return ⟨more.value, more.rest, by
          have := c.shorter; have := more.shorter; simp only [List.length_cons]; omega⟩
      else do
        let right ← expr (if toRight then s else s + 1) rest
        let more ← operators strength (.binary op left right.value) right.rest
        return ⟨more.value, more.rest, by
          have := right.shorter; have := more.shorter; simp only [List.length_cons]; omega⟩
termination_by (ts.length, 0)
decreasing_by
  · exact Prod.Lex.left _ _ (by simp)
  · exact Prod.Lex.left _ _ (by have := c.shorter; simp only [List.length_cons]; omega)
  · exact Prod.Lex.left _ _ (by simp)
  · exact Prod.Lex.left _ _ (by have := right.shorter; simp only [List.length_cons]; omega)

/-- A chain of comparisons after the operator `op`, of which `before` has been
read. -/
def comparisons (before : Option Formula) (left : Formula) (op : Binary) (ts : List Token) :
    Option (Taken Formula ts.length) := do
  let right ← expr 21 ts
  let this := Formula.binary op left right.value
  let all := (before.map fun b => Formula.binary .and b this).getD this
  match hr : right.rest with
  | t :: rest =>
    match binary? t with
    | some (next, _, _) =>
      if isComparison next then do
        let more ← comparisons (some all) right.value next rest
        return ⟨more.value, more.rest, by
          have := right.shorter; have := more.shorter; simp only [hr, List.length_cons] at *; omega⟩
      else return ⟨all, t :: rest, by have := right.shorter; rw [hr] at this; exact this⟩
    | none => return ⟨all, t :: rest, by have := right.shorter; rw [hr] at this; exact this⟩
  | [] => return ⟨all, [], by have := right.shorter; rw [hr] at this; exact this⟩
termination_by (ts.length, 10)
decreasing_by
  · exact Prod.Lex.right _ (by decide)
  · exact Prod.Lex.left _ _ (by
      have := right.shorter; simp only [hr, List.length_cons] at *; omega)

/-- The choices after a condition; without a middle part the condition is its
own first result. -/
def choices (cond : Formula) (ts : List Token) : Option (Taken Formula (ts.length + 1)) :=
  match ts with
  | .sign "?" :: .sign ":" :: rest => do
    let no ← expr 0 rest
    let more ← choices (.choose cond cond no.value) no.rest
    return ⟨more.value, more.rest, by
      have := no.shorter; have := more.shorter; simp only [List.length_cons]; omega⟩
  | .sign "?" :: rest => do
    let yes ← expr 0 rest
    let colon ← expect ":" yes.rest
    let no ← expr 0 colon.rest
    let more ← choices (.choose cond yes.value no.value) no.rest
    return ⟨more.value, more.rest, by
      have := yes.shorter; have := colon.shorter; have := no.shorter; have := more.shorter
      simp only [List.length_cons]; omega⟩
  | ts => some ⟨cond, ts, by simp⟩
termination_by (ts.length, 0)
decreasing_by
  · exact Prod.Lex.left _ _ (by simp only [List.length_cons]; omega)
  · exact Prod.Lex.left _ _ (by have := no.shorter; simp only [List.length_cons]; omega)
  · exact Prod.Lex.left _ _ (by simp)
  · exact Prod.Lex.left _ _ (by
      have := yes.shorter; have := colon.shorter; simp only [List.length_cons]; omega)
  · exact Prod.Lex.left _ _ (by
      have := yes.shorter; have := colon.shorter; have := no.shorter
      simp only [List.length_cons]; omega)

/-- An operand with the signs before it and the selections after it. -/
def primary (ts : List Token) : Option (Taken Formula ts.length) :=
  match ts with
  | [] => none
  | t :: rest =>
    match unary? t with
    | some (op, s) => do
      let e ← expr s rest
      let p ← selections (.unary op e.value) e.rest
      return ⟨p.value, p.rest, by
        have := e.shorter; have := p.shorter; simp only [List.length_cons]; omega⟩
    | none =>
      match t with
      | .number w => (number? w).map fun e => ⟨e, rest, by simp⟩
      | .text w => do
        let p ← selections (.text w) rest
        return ⟨p.value, p.rest, by have := p.shorter; simpa using this⟩
      | .name "true" => some ⟨.bool true, rest, by simp⟩
      | .name "false" => some ⟨.bool false, rest, by simp⟩
      | .name "nil" => some ⟨.null, rest, by simp⟩
      | .name w => do
        let e ← named w rest
        let p ← selections e.value e.rest
        return ⟨p.value, p.rest, by
          have := e.shorter; have := p.shorter; simp only [List.length_cons]; omega⟩
      | .sign "(" => do
        let e ← expr 0 rest
        let all ← sequence e.value e.rest
        let close ← expect ")" all.rest
        let p ← selections all.value close.rest
        return ⟨p.value, p.rest, by
          have := e.shorter; have := all.shorter; have := close.shorter; have := p.shorter
          simp only [List.length_cons]; omega⟩
      | .sign "[" => do
        let e ← items "]" [] rest
        let p ← selections (.list e.value) e.rest
        return ⟨p.value, p.rest, by
          have := e.shorter; have := p.shorter; simp only [List.length_cons]; omega⟩
      | .sign _ => none
termination_by (ts.length, 0)
decreasing_by
  · exact Prod.Lex.left _ _ (by simp)
  · exact Prod.Lex.left _ _ (by have := e.shorter; simp only [List.length_cons]; omega)
  · exact Prod.Lex.left _ _ (by simp)
  · exact Prod.Lex.left _ _ (by simp)
  · exact Prod.Lex.left _ _ (by have := e.shorter; simp only [List.length_cons]; omega)
  · exact Prod.Lex.left _ _ (by simp)
  · exact Prod.Lex.left _ _ (by have := e.shorter; simp only [List.length_cons]; omega)
  · exact Prod.Lex.left _ _ (by
      have := e.shorter; have := all.shorter; have := close.shorter
      simp only [List.length_cons]; omega)
  · exact Prod.Lex.left _ _ (by simp)
  · exact Prod.Lex.left _ _ (by have := e.shorter; simp only [List.length_cons]; omega)

/-- A name, or a call when a bracket follows it. -/
def named (w : String) (ts : List Token) : Option (Taken Formula (ts.length + 1)) :=
  match ts with
  | .sign "(" :: rest => do
    let args ← items ")" [] rest
    let e := match Builtin.ofName? w with
      | some b => Formula.builtin b args.value
      | none => Formula.call w args.value
    return ⟨e, args.rest, by have := args.shorter; simp only [List.length_cons]; omega⟩
  | ts => some ⟨.name w, ts, by simp⟩
termination_by (ts.length, 0)
decreasing_by exact Prod.Lex.left _ _ (by simp)

/-- What is selected from a value: elements and fields. -/
def selections (base : Formula) (ts : List Token) : Option (Taken Formula (ts.length + 1)) :=
  match ts with
  | .sign "[" :: rest => do
    let i ← expr 0 rest
    let close ← expect "]" i.rest
    let more ← selections (.index base i.value) close.rest
    return ⟨more.value, more.rest, by
      have := i.shorter; have := close.shorter; have := more.shorter
      simp only [List.length_cons]; omega⟩
  | .sign "." :: .name w :: rest => do
    let more ← selections (.field base w) rest
    return ⟨more.value, more.rest, by have := more.shorter; simp only [List.length_cons]; omega⟩
  | .sign "." :: _ => none
  | ts => some ⟨base, ts, by simp⟩
termination_by (ts.length, 0)
decreasing_by
  · exact Prod.Lex.left _ _ (by simp)
  · exact Prod.Lex.left _ _ (by
      have := i.shorter; have := close.shorter; simp only [List.length_cons]; omega)
  · exact Prod.Lex.left _ _ (by simp only [List.length_cons]; omega)

/-- Expressions with commas between them up to a closing bracket; a comma may
stand before the bracket. -/
def items (close : String) (before : List Formula) (ts : List Token) :
    Option (Taken (List Formula) ts.length) :=
  match ts with
  | [] => none
  | t :: rest =>
    if t = .sign close then some ⟨before.reverse, rest, by simp⟩
    else do
      let e ← expr 0 (t :: rest)
      match hr : e.rest with
      | .sign "," :: more => do
        let all ← items close (e.value :: before) more
        return ⟨all.value, all.rest, by
          have := e.shorter; have := all.shorter; simp only [hr, List.length_cons] at *; omega⟩
      | rest' => do
        let c ← expect close rest'
        return ⟨(e.value :: before).reverse, c.rest, by
          have he := e.shorter; have := c.shorter; rw [hr] at he; omega⟩
termination_by (ts.length, 10)
decreasing_by
  · exact Prod.Lex.right _ (by decide)
  · exact Prod.Lex.left _ _ (by
      have := e.shorter; simp only [hr, List.length_cons] at *; omega)

/-- The expressions after the first one of a sequence; the last one counts. -/
def sequence (first : Formula) (ts : List Token) : Option (Taken Formula (ts.length + 1)) :=
  match ts with
  | [.sign ";"] => some ⟨first, [], by simp⟩
  | .sign ";" :: rest => do
    let e ← expr 0 rest
    let more ← sequence (.seq first e.value) e.rest
    return ⟨more.value, more.rest, by
      have := e.shorter; have := more.shorter; simp only [List.length_cons]; omega⟩
  | ts => some ⟨first, ts, by simp⟩
termination_by (ts.length, 0)
decreasing_by
  · exact Prod.Lex.left _ _ (by simp)
  · exact Prod.Lex.left _ _ (by have := e.shorter; simp only [List.length_cons]; omega)

end

end Parser

/-- Reads a formula. -/
def read? (s : String) : Option Formula := do
  let ts ← Token.scan? s
  let e ← Parser.expr 0 ts
  let all ← Parser.sequence e.value e.rest
  if all.rest.isEmpty then some all.value else none

end EffectChain.Formula
