import EffectChain.Number.Format
import EffectChain.Number.Read
import EffectChain.Program.Tree

/-!
# EffectChain.Program.Parser

From tokens to a program.

A parser takes the tokens still to be read and gives back its value with the
tokens after it.  `Parsed α n` carries the proof that fewer than `n` tokens are
left, so that every loop and every recursion ends because the list gets shorter.
The end of the input is not in the list: it is what is seen when the list is
empty.
-/

namespace EffectChain

/-- The `n` tokens at hand became fewer: a value and what is left. -/
structure Parsed (α : Type) (n : Nat) where
  value : α
  rest : List Token
  shorter : rest.length < n

namespace Parser

/-- What the parser knows at a place. -/
structure Scope where
  /-- What is seen after the last token. -/
  last : Token
  maxDepth : Nat
  search : List String := []
  /-- The names bound so far, in order. -/
  vars : List String := []
  /-- The namespace of the innermost block. -/
  block : Option String := none
  inLoop : Bool := false
  nested : Bool := false
  depth : Nat := 0
  deriving Repr, Inhabited

namespace Scope

/-- The next token. -/
def peek (s : Scope) (ts : List Token) : Token := ts.headD s.last

/-- The token after the next one. -/
def peekSecond (s : Scope) (ts : List Token) : Token := (ts.drop 1).headD s.last

def fail {α : Type} (cause : SyntaxCause) (at' : Pos) : Except SyntaxError α :=
  .error ⟨cause, at', []⟩

def unexpected {α : Type} (t : Token) (wanted : String) : Except SyntaxError α :=
  fail (.unexpectedToken t wanted) t.pos

/-- One level deeper, if the limit allows it. -/
def enter (s : Scope) (at' : Pos) : Except SyntaxError Scope :=
  if s.depth + 1 > s.maxDepth then fail .nestingTooDeep at' else .ok { s with depth := s.depth + 1 }

/-- The next token, which has to be of the given kind. -/
def expect (s : Scope) (kind : TokenKind) (ts : List Token) :
    Except SyntaxError (Parsed Token ts.length) :=
  match ts with
  | [] => unexpected s.last kind.text
  | t :: rest =>
    if t.kind = kind then .ok ⟨t, rest, by simp⟩ else unexpected t kind.text

/-- The namespaces of a call written with the qualifier `qual`. -/
def namespaceRef (s : Scope) (qual : List String) : NamespaceRef :=
  match qual, s.block with
  | q :: qs, _ =>
    { name := ".".intercalate (q :: qs), path := q :: qs, explicit := true, source := .qualified,
      resolved := true, search := s.search }
  | [], some block =>
    { name := block, path := [block], source := .block, resolved := true, search := s.search }
  | [], none => { resolved := !s.search.isEmpty, search := s.search }

end Scope

open Scope

/-! ## literals -/

/-- The value of a hexadecimal number, zero when a character is no digit. -/
def hexValue (cs : List Char) : Nat :=
  if cs.all Number.isHexDigit then Number.digitsValue 16 (cs.map Number.hexDigitValue) else 0

/-- The color of the digits after the number sign: one or two digits for each
component; components that are missing keep those of opaque black. -/
def colorOf (raw : String) : Rgba :=
  let hex := (Bytes.ofString raw).tail.map Char.ofUInt8
  match hex with
  | [r, g, b] => { red := short r, green := short g, blue := short b }
  | _ =>
    { red := pair hex 0, green := pair (hex.drop 2) 0, blue := pair (hex.drop 4) 0,
      alpha := pair (hex.drop 6) 1 }
where
  short (c : Char) : Float := Number.ofInt (hexValue [c] * 17) / 255
  pair (cs : List Char) (missing : Float) : Float :=
    match cs with
    | a :: b :: _ => Number.ofInt (hexValue [a, b]) / 255
    | _ => missing

/-- A number literal. -/
def numeral (t : Token) (rest : List Token) : Except SyntaxError (Parsed Expr (rest.length + 1)) :=
  match Number.read? t.word with
  | some v => .ok ⟨.number v t.word t.pos, rest, by simp⟩
  | none => fail (.invalidNumber t.lexeme) t.pos

/-- Joins two numbers with an operator; the result stands where the left one does. -/
def fold (op : Token) (left right : Expr) : Except SyntaxError Expr :=
  match left, right with
  | .number l _ pos, .number r _ _ =>
    let result := fun v => Except.ok (Expr.number v (Number.plain v) pos)
    match op.kind with
    | .plus => result (l + r)
    | .minus => result (l - r)
    | .star => result (l * r)
    | .slash => if r == 0 then fail .divisionByZero op.pos else result (l / r)
    | _ => result 0
  | _, _ => fail (.operatorOperands op.word) op.pos

/-- A sign before an operand. -/
def applySign (op : Token) (operand : Expr) : Except SyntaxError Expr :=
  match operand with
  | .number v raw pos =>
    if op.kind = .plus then .ok (.number v raw pos) else .ok (.number (-v) ("-" ++ raw) op.pos)
  | _ => fail (.unaryOperand op.word) op.pos

/-- The surface a token names; a word that names none stands for the first output. -/
def surfaceOf (t : Token) : Surface := (Surface.ofName? t.word).getD {}

/-- The names of a dotted path and the tokens after it. -/
def dottedPath : List Token → List String × List Token
  | d :: t :: rest =>
    if d.kind = .dot && t.kind = .identifier then
      ((t.word :: (dottedPath rest).1), (dottedPath rest).2)
    else ([], d :: t :: rest)
  | ts => ([], ts)

theorem length_dottedPath (ts : List Token) : (dottedPath ts).2.length ≤ ts.length := by
  fun_induction dottedPath ts with
  | case1 d t rest h ih => simp only [List.length_cons]; omega
  | case2 => simp
  | case3 => simp

/-- The last name of a path and the names before it. -/
def splitPath (first : String) (more : List String) : String × List String :=
  ((first :: more).getLast (by simp), (first :: more).dropLast)

/-! ## expressions -/

mutual

/-- An expression, one level deeper than its surroundings. -/
def expr (s : Scope) (ts : List Token) : Except SyntaxError (Parsed Expr ts.length) := do
  let inner ← s.enter (s.peek ts).pos
  additive inner ts
termination_by (ts.length, 9)
decreasing_by exact Prod.Lex.right _ (by decide)

def additive (s : Scope) (ts : List Token) : Except SyntaxError (Parsed Expr ts.length) := do
  let l ← multiplicative s ts
  let r ← sums s l.value l.rest
  return ⟨r.value, r.rest, by have := l.shorter; have := r.shorter; omega⟩
termination_by (ts.length, 8)
decreasing_by
  · exact Prod.Lex.right _ (by decide)
  · exact Prod.Lex.left _ _ l.shorter

/-- The sums and differences after a left operand. -/
def sums (s : Scope) (left : Expr) (ts : List Token) :
    Except SyntaxError (Parsed Expr (ts.length + 1)) :=
  match ts with
  | [] => .ok ⟨left, [], by simp⟩
  | op :: more =>
    if op.kind = .plus || op.kind = .minus then do
      let r ← multiplicative s more
      let v ← fold op left r.value
      let z ← sums s v r.rest
      return ⟨z.value, z.rest, by
        have := r.shorter; have := z.shorter; simp only [List.length_cons]; omega⟩
    else .ok ⟨left, op :: more, by simp⟩
termination_by (ts.length, 0)
decreasing_by
  · exact Prod.Lex.left _ _ (by simp)
  · exact Prod.Lex.left _ _ (by have := r.shorter; simp only [List.length_cons]; omega)

def multiplicative (s : Scope) (ts : List Token) :
    Except SyntaxError (Parsed Expr ts.length) := do
  let l ← unary s ts
  let r ← products s l.value l.rest
  return ⟨r.value, r.rest, by have := l.shorter; have := r.shorter; omega⟩
termination_by (ts.length, 7)
decreasing_by
  · exact Prod.Lex.right _ (by decide)
  · exact Prod.Lex.left _ _ l.shorter

/-- The products and quotients after a left operand. -/
def products (s : Scope) (left : Expr) (ts : List Token) :
    Except SyntaxError (Parsed Expr (ts.length + 1)) :=
  match ts with
  | [] => .ok ⟨left, [], by simp⟩
  | op :: more =>
    if op.kind = .star || op.kind = .slash then do
      let r ← unary s more
      let v ← fold op left r.value
      let z ← products s v r.rest
      return ⟨z.value, z.rest, by
        have := r.shorter; have := z.shorter; simp only [List.length_cons]; omega⟩
    else .ok ⟨left, op :: more, by simp⟩
termination_by (ts.length, 0)
decreasing_by
  · exact Prod.Lex.left _ _ (by simp)
  · exact Prod.Lex.left _ _ (by have := r.shorter; simp only [List.length_cons]; omega)

def unary (s : Scope) (ts : List Token) : Except SyntaxError (Parsed Expr ts.length) :=
  match ts with
  | [] => unexpected s.last "expression"
  | op :: more =>
    if op.kind = .minus || op.kind = .plus then do
      let r ← unary s more
      let v ← applySign op r.value
      return ⟨v, r.rest, by have := r.shorter; simp only [List.length_cons]; omega⟩
    else primary s op more
termination_by (ts.length, 6)
decreasing_by
  · exact Prod.Lex.left _ _ (by simp)
  · exact Prod.Lex.right _ (by decide)

/-- An expression that starts with the token `t`. -/
def primary (s : Scope) (t : Token) (rest : List Token) :
    Except SyntaxError (Parsed Expr (rest.length + 1)) :=
  let literal := fun e => Except.ok (⟨e, rest, by simp⟩ : Parsed Expr (rest.length + 1))
  match t.kind with
  | .number => numeral t rest
  | .string => literal (.string t.lexeme t.pos)
  | .color => literal (.color t.word (colorOf t.word) t.pos)
  | .surface => literal (.surface (surfaceOf t) t.pos)
  | .closure => literal (.closure t.word t.pos)
  | .lparen => do
    let e ← expr s rest
    let close ← s.expect .rparen e.rest
    return ⟨e.value, close.rest, by have := e.shorter; have := close.shorter; omega⟩
  | .keyword =>
    if t.word = "true" || t.word = "false" then literal (.bool (t.word = "true") t.pos)
    else if t.word = "from" then do
      let c ← pinnedCall s t.pos rest
      let e ← chainAfter s c.value c.rest
      return ⟨e.value, e.rest, by have := c.shorter; have := e.shorter; omega⟩
    else unexpected t "expression"
  | .identifier => named s t rest
  | _ => unexpected t "expression"
termination_by (rest.length + 1, 0)
decreasing_by
  · exact Prod.Lex.left _ _ (by simp)
  · exact Prod.Lex.left _ _ (by simp)
  · exact Prod.Lex.left _ _ (by have := c.shorter; omega)
  · exact Prod.Lex.left _ _ (by simp)

/-- A call that stands alone or starts a chain. -/
def chainAfter (s : Scope) (c : Call) (ts : List Token) :
    Except SyntaxError (Parsed Expr (ts.length + 1)) :=
  if (s.peek ts).kind = .dot then do
    let ch ← chainTail s { calls := [c], pos := c.pos } ts
    return ⟨.chain ch.value, ch.rest, ch.shorter⟩
  else .ok ⟨.call c, ts, by simp⟩
termination_by (ts.length, 5)
decreasing_by exact Prod.Lex.right _ (by decide)

/-- An expression that starts with a name: a variable, a call with or without
qualifier, a dotted path or `Math.PI`. -/
def named (s : Scope) (first : Token) (rest : List Token) :
    Except SyntaxError (Parsed Expr (rest.length + 1)) :=
  let next := s.peek rest
  if first.word = "Math" && next.kind = .dot && (s.peekSecond rest).word = "PI" then
    .ok ⟨.number 3.141592653589793 "Math.PI" first.pos, rest.drop 2, by
      simp only [List.length_drop]; omega⟩
  else if s.vars.contains first.word && next.kind = .dot then do
    let ch ← chainTail s { base := some first.word, pos := first.pos } rest
    return ⟨.chain ch.value, ch.rest, ch.shorter⟩
  else if s.vars.contains first.word && next.kind ≠ .lparen then
    .ok ⟨.ident first.word first.pos, rest, by simp⟩
  else
    if (s.peek (dottedPath rest).2).kind = .lparen then do
      let (name, qual) := splitPath first.word (dottedPath rest).1
      let c ← call s name qual first.pos (dottedPath rest).2
      let e ← chainAfter s c.value c.rest
      return ⟨e.value, e.rest, by
        have := length_dottedPath rest; have := c.shorter; have := e.shorter; omega⟩
    else
      let e := if (dottedPath rest).1.isEmpty then Expr.ident first.word first.pos
        else Expr.member (first.word :: (dottedPath rest).1) first.pos
      .ok ⟨e, (dottedPath rest).2, by have := length_dottedPath rest; omega⟩
termination_by (rest.length, 6)
decreasing_by
  · exact Prod.Lex.right _ (by decide)
  · have hp := length_dottedPath rest
    rcases Nat.lt_or_eq_of_le hp with h | h
    · exact Prod.Lex.left _ _ h
    · rw [h]; exact Prod.Lex.right _ (by decide)
  · exact Prod.Lex.left _ _ (by
      have := length_dottedPath rest; have := c.shorter; omega)

/-- The rest of `from(namespace, name(arguments))` after the word `from`. -/
def pinnedCall (s : Scope) (at' : Pos) (ts : List Token) :
    Except SyntaxError (Parsed Call ts.length) := do
  let paren ← s.expect .lparen ts
  match hr : paren.rest with
  | [] => unexpected s.last "namespace"
  | ns :: more =>
    if ns.kind = .identifier || ns.kind = .string then do
      let comma ← s.expect .comma more
      let name ← s.expect .identifier comma.rest
      let c ← call s name.value.word [] name.value.pos name.rest
      let close ← s.expect .rparen c.rest
      let pinned : NamespaceRef :=
        { name := ns.word, path := [ns.word], explicit := true, source := .pinned,
          resolved := true, search := s.search }
      return ⟨{ c.value with ns := pinned, pos := at' }, close.rest, by
        have := paren.shorter; have := comma.shorter; have := name.shorter; have := c.shorter
        have := close.shorter; simp only [hr, List.length_cons] at *; omega⟩
    else unexpected ns "namespace"
termination_by (ts.length, 0)
decreasing_by
  exact Prod.Lex.left _ _ (by
    have := paren.shorter; have := comma.shorter; have := name.shorter
    simp only [hr, List.length_cons] at *; omega)

/-- The argument list of a call. -/
def call (s : Scope) (name : String) (qual : List String) (at' : Pos) (ts : List Token) :
    Except SyntaxError (Parsed Call ts.length) := do
  let paren ← s.expect .lparen ts
  let inner ← s.enter paren.value.pos
  let args ← arguments inner [] [] paren.rest
  let close ← s.expect .rparen args.rest
  return ⟨{ name, args := args.value.1, kwargs := args.value.2, ns := s.namespaceRef qual,
            pos := at' },
    close.rest, by
      have := paren.shorter; have := args.shorter; have := close.shorter; omega⟩
termination_by (ts.length, 4)
decreasing_by exact Prod.Lex.left _ _ paren.shorter

/-- The arguments up to the closing parenthesis, after those already read.  They
are all positional or all named, and no name is given twice. -/
def arguments (s : Scope) (args : List Expr) (kwargs : List Keyword) (ts : List Token) :
    Except SyntaxError (Parsed (List Expr × List Keyword) (ts.length + 1)) := do
  let t := s.peek ts
  if t.kind = .rparen then return ⟨(args, kwargs), ts, by simp⟩
  let keyword := t.kind = .identifier && (s.peekSecond ts).kind = .colon
  if (keyword && !args.isEmpty) || (!keyword && !kwargs.isEmpty) then
    fail .mixedArguments t.pos
  else if keyword then
    if kwargs.any (·.name = t.word) then fail (.duplicateArgument t.lexeme) t.pos
    else
      let v ← expr s (ts.drop 2)
      let kwargs := kwargs ++ [⟨t.word, v.value, t.pos⟩]
      match hr : v.rest with
      | c :: more =>
        if c.kind = .comma then do
          let z ← arguments s args kwargs more
          return ⟨z.value, z.rest, by
            have := v.shorter; have := z.shorter
            simp only [hr, List.length_cons, List.length_drop] at *; omega⟩
        else return ⟨(args, kwargs), v.rest, by
          have := v.shorter; simp only [List.length_drop] at *; omega⟩
      | [] => return ⟨(args, kwargs), [], by simp⟩
  else
    let v ← expr s ts
    let args := args ++ [v.value]
    match hr : v.rest with
    | c :: more =>
      if c.kind = .comma then do
        let z ← arguments s args kwargs more
        return ⟨z.value, z.rest, by
          have := v.shorter; have := z.shorter
          simp only [hr, List.length_cons] at *; omega⟩
      else return ⟨(args, kwargs), v.rest, by have := v.shorter; omega⟩
    | [] => return ⟨(args, kwargs), [], by simp⟩
termination_by (ts.length, 10)
decreasing_by
  · have : (ts.drop 2).length ≤ ts.length := by simp
    rcases Nat.lt_or_eq_of_le this with h | h
    · exact Prod.Lex.left _ _ h
    · rw [h]; exact Prod.Lex.right _ (by decide)
  · exact Prod.Lex.left _ _ (by
      have := v.shorter; simp only [hr, List.length_cons, List.length_drop] at *; omega)
  · exact Prod.Lex.right _ (by decide)
  · exact Prod.Lex.left _ _ (by
      have := v.shorter; simp only [hr, List.length_cons] at *; omega)

/-- The calls after the ones a chain has already, up to its `out()` or its end. -/
def chainTail (s : Scope) (ch : Chain) (ts : List Token) :
    Except SyntaxError (Parsed Chain (ts.length + 1)) :=
  match ts with
  | [] => .ok ⟨ch, [], by simp⟩
  | dot :: more =>
    if dot.kind ≠ .dot then .ok ⟨ch, dot :: more, by simp⟩
    else match more with
      | [] => unexpected s.last "call"
      | t :: rest =>
        if t.isWord "from" then do
          let c ← pinnedCall s t.pos rest
          let z ← chainTail s { ch with calls := ch.calls ++ [c.value] } c.rest
          return ⟨z.value, z.rest, by
            have := c.shorter; have := z.shorter; simp only [List.length_cons]; omega⟩
        else if t.kind ≠ .identifier then unexpected t "call"
        else if t.word = "out" && (s.peek rest).kind = .lparen then do
          let target ← outTarget s t.pos (rest.drop 1)
          if (s.peek target.rest).kind = .dot then fail .outMidChain (s.peek target.rest).pos
          else return ⟨{ ch with out := some target.value }, target.rest, by
            have := target.shorter; simp only [List.length_cons, List.length_drop] at *; omega⟩
        else do
          let (name, qual) := splitPath t.word (dottedPath rest).1
          let c ← call s name qual t.pos (dottedPath rest).2
          let z ← chainTail s { ch with calls := ch.calls ++ [c.value] } c.rest
          return ⟨z.value, z.rest, by
            have := length_dottedPath rest; have := c.shorter; have := z.shorter
            simp only [List.length_cons] at *; omega⟩
termination_by (ts.length, 3)
decreasing_by
  · exact Prod.Lex.left _ _ (by simp only [List.length_cons]; omega)
  · exact Prod.Lex.left _ _ (by have := c.shorter; simp only [List.length_cons]; omega)
  · exact Prod.Lex.left _ _ (by simp only [List.length_cons, List.length_drop]; omega)
  · exact Prod.Lex.left _ _ (by
      have := length_dottedPath rest; simp only [List.length_cons]; omega)
  · exact Prod.Lex.left _ _ (by
      have := length_dottedPath rest; have := c.shorter; simp only [List.length_cons]; omega)

/-- The target of `out(`, without one the first output, and the closing parenthesis. -/
def outTarget (s : Scope) (at' : Pos) (ts : List Token) :
    Except SyntaxError (Parsed Expr (ts.length + 1)) :=
  if (s.peek ts).kind = .rparen then
    .ok ⟨.surface {} at', ts.drop 1, by simp only [List.length_drop]; omega⟩
  else do
    let e ← expr s ts
    let close ← s.expect .rparen e.rest
    return ⟨e.value, close.rest, by have := e.shorter; have := close.shorter; omega⟩
termination_by (ts.length, 10)
decreasing_by exact Prod.Lex.right _ (by decide)

end

/-! ## statements -/

/-- What the statements read so far have bound and chosen. -/
structure Found where
  vars : List String := []
  render : Option (Surface × Pos) := none
  deriving Repr, Inhabited

/-- The tokens after any semicolons. -/
def skipSemicolons (ts : List Token) : List Token := ts.dropWhile (·.kind = .semicolon)

theorem length_skipSemicolons (ts : List Token) : (skipSemicolons ts).length ≤ ts.length :=
  (List.dropWhile_suffix _).length_le

/-- A binding after the word `let`. -/
def letBinding (s : Scope) (at' : Pos) (ts : List Token) :
    Except SyntaxError (Parsed (String × Stmt) ts.length) := do
  let name ← s.expect .identifier ts
  let eq ← s.expect .assign name.rest
  let v ← expr s eq.rest
  return ⟨(name.value.word, .bind name.value.word v.value at'), v.rest, by
    have := name.shorter; have := eq.shorter; have := v.shorter; omega⟩

/-- The target of a render directive after the word `render`. -/
def renderTarget (s : Scope) (found : Found) (at' : Pos) (ts : List Token) :
    Except SyntaxError (Parsed (Surface × Pos) ts.length) := do
  if s.nested then fail .renderNested at'
  else if found.render.isSome then fail .duplicateRender at'
  else
    let paren ← s.expect .lparen ts
    let target ← s.expect .surface paren.rest
    let close ← s.expect .rparen target.rest
    return ⟨(surfaceOf target.value, target.value.pos), close.rest, by
      have := paren.shorter; have := target.shorter; have := close.shorter; omega⟩

/-- A chain that stands as a statement. -/
def chainStatement (s : Scope) (ts : List Token) :
    Except SyntaxError (Parsed Stmt ts.length) := do
  let e ← expr s ts
  match e.value with
  | .chain ch => return ⟨.run ch ch.pos, e.rest, e.shorter⟩
  | .call c => return ⟨.run { calls := [c], pos := c.pos } c.pos, e.rest, e.shorter⟩
  | _ => fail .notAChain (s.peek ts).pos

mutual

/-- The statements one statement of the source stands for: a namespace block is
its body, a render directive is nothing. -/
def statement (s : Scope) (found : Found) (ts : List Token) :
    Except SyntaxError (Parsed (List Stmt × Found) ts.length) :=
  let s := { s with vars := found.vars }
  match ts with
  | [] => do
    let st ← chainStatement s []
    return ⟨([st.value], found), st.rest, st.shorter⟩
  | t :: rest =>
    if t.isWord "let" then do
      let b ← letBinding s t.pos rest
      let (name, st) := b.value
      let vars := if found.vars.contains name then found.vars else found.vars ++ [name]
      return ⟨([st], { found with vars }), b.rest, by
        have := b.shorter; simp only [List.length_cons]; omega⟩
    else if t.isWord "if" then do
      let z ← branches s found t.pos [] rest
      return ⟨([z.value.1], z.value.2), z.rest, by
        have := z.shorter; simp only [List.length_cons]; omega⟩
    else if t.isWord "loop" then do
      if (s.peek rest).kind = .lbrace then
        let body ← block { s with inLoop := true } found rest
        return ⟨([.repeated none body.value.1 t.pos], body.value.2), body.rest, by
          have := body.shorter; simp only [List.length_cons]; omega⟩
      else
        let count ← expr s rest
        let body ← block { s with inLoop := true } found count.rest
        return ⟨([.repeated (some count.value) body.value.1 t.pos], body.value.2), body.rest, by
          have := count.shorter; have := body.shorter; simp only [List.length_cons]; omega⟩
    else if t.isWord "break" || t.isWord "continue" then
      if s.inLoop then
        let st := if t.isWord "break" then Stmt.leaveLoop t.pos else Stmt.nextRound t.pos
        .ok ⟨([st], found), rest, by simp⟩
      else fail (.flowOutsideLoop t.word) t.pos
    else if t.isWord "return" then .ok ⟨([.finish t.pos], found), rest, by simp⟩
    else if t.isWord "render" then do
      let target ← renderTarget s found t.pos rest
      return ⟨([], { found with render := some target.value }), target.rest, by
        have := target.shorter; simp only [List.length_cons]; omega⟩
    else if t.isWord "namespace" then do
      let name ← s.expect .identifier rest
      let brace ← s.expect .lbrace name.rest
      let inner ← s.enter brace.value.pos
      let b ← body { inner with block := some name.value.word } found brace.rest
      return ⟨b.value, b.rest, by
        have := name.shorter; have := brace.shorter; have := b.shorter
        simp only [List.length_cons]; omega⟩
    else if t.isWord "search" then fail .searchNotFirst t.pos
    else do
      let st ← chainStatement s (t :: rest)
      return ⟨([st.value], found), st.rest, st.shorter⟩
termination_by (ts.length, 2)
decreasing_by
  · exact Prod.Lex.left _ _ (by simp)
  · exact Prod.Lex.left _ _ (by simp)
  · exact Prod.Lex.left _ _ (by have := count.shorter; simp only [List.length_cons]; omega)
  · exact Prod.Lex.left _ _ (by
      have := name.shorter; have := brace.shorter; simp only [List.length_cons]; omega)

/-- The arms of a conditional after the word that starts the next one. -/
def branches (s : Scope) (found : Found) (start : Pos) (arms : List Branch) (ts : List Token)
    (at' : Pos := start) :
    Except SyntaxError (Parsed (Stmt × Found) ts.length) := do
  let s := { s with vars := found.vars }
  let cond ← expr s ts
  let body ← block s found cond.rest
  let arms := arms ++ [⟨cond.value, body.value.1, at'⟩]
  let found := body.value.2
  match hr : body.rest with
  | [] => return ⟨(.choose arms none start, found), [], by
      have := cond.shorter; simp only [List.length_nil]; omega⟩
  | t :: rest =>
    if t.isWord "elif" then
      let z ← branches s found start arms rest t.pos
      return ⟨z.value, z.rest, by
        have := cond.shorter; have := body.shorter; have := z.shorter
        simp only [hr, List.length_cons] at *; omega⟩
    else if t.isWord "else" then
      let b ← block s found rest
      return ⟨(.choose arms (some b.value.1) start, b.value.2), b.rest, by
        have := cond.shorter; have := body.shorter; have := b.shorter
        simp only [hr, List.length_cons] at *; omega⟩
    else return ⟨(.choose arms none start, found), body.rest, by
      have := cond.shorter; have := body.shorter; omega⟩
termination_by (ts.length, 1)
decreasing_by
  · exact Prod.Lex.left _ _ cond.shorter
  · exact Prod.Lex.left _ _ (by
      have := cond.shorter; have := body.shorter; simp only [hr, List.length_cons] at *; omega)
  · exact Prod.Lex.left _ _ (by
      have := cond.shorter; have := body.shorter; simp only [hr, List.length_cons] at *; omega)

/-- Statements between braces. -/
def block (s : Scope) (found : Found) (ts : List Token) :
    Except SyntaxError (Parsed (List Stmt × Found) ts.length) := do
  let brace ← s.expect .lbrace ts
  let inner ← s.enter brace.value.pos
  let b ← body { inner with nested := true } found brace.rest
  return ⟨b.value, b.rest, by have := brace.shorter; have := b.shorter; omega⟩
termination_by (ts.length, 1)
decreasing_by exact Prod.Lex.left _ _ brace.shorter

/-- Statements up to the closing brace. -/
def body (s : Scope) (found : Found) (ts : List Token) :
    Except SyntaxError (Parsed (List Stmt × Found) ts.length) := do
  match hr : skipSemicolons ts with
  | [] => unexpected s.last "\x7d"
  | t :: rest =>
    if t.kind = .rbrace then
      return ⟨([], found), rest, by
        have := length_skipSemicolons ts; simp only [hr, List.length_cons] at *; omega⟩
    else if t.kind = .endOfInput then unexpected t "\x7d"
    else
      let st ← statement s found (t :: rest)
      let more ← body s st.value.2 st.rest
      return ⟨(st.value.1 ++ more.value.1, more.value.2), more.rest, by
        have := length_skipSemicolons ts; have := st.shorter; have := more.shorter
        simp only [hr] at *; omega⟩
termination_by (ts.length, 3)
decreasing_by
  · have h := length_skipSemicolons ts
    rw [hr] at h
    rcases Nat.lt_or_eq_of_le h with h | h
    · exact Prod.Lex.left _ _ h
    · rw [h]; exact Prod.Lex.right _ (by decide)
  · exact Prod.Lex.left _ _ (by
      have := length_skipSemicolons ts; have := st.shorter
      simp only [hr] at *; omega)

end

/-- The statements up to the end of the input. -/
def statements (s : Scope) (found : Found) (ts : List Token) :
    Except SyntaxError (List Stmt × Found) := do
  match _hr : skipSemicolons ts with
  | [] => return ([], found)
  | t :: rest =>
    if t.kind = .endOfInput then return ([], found)
    else
      let st ← statement s found (t :: rest)
      let more ← statements s st.value.2 st.rest
      return (st.value.1 ++ more.1, more.2)
termination_by ts.length
decreasing_by
  have := length_skipSemicolons ts
  have := st.shorter
  simp only [_hr] at *
  omega

/-- The names of a search directive, each once. -/
def searchNames (s : Scope) (found : List String) (ts : List Token) :
    Except SyntaxError (Parsed (List String) ts.length) := do
  let name ← s.expect .identifier ts
  let word := name.value.word
  let found := if found.contains word then found else found ++ [word]
  match hr : name.rest with
  | [] => return ⟨found, [], by have := name.shorter; simp only [List.length_nil]; omega⟩
  | c :: rest =>
    if c.kind = .comma then
      let z ← searchNames s found rest
      return ⟨z.value, z.rest, by
        have := name.shorter; have := z.shorter; simp only [hr, List.length_cons] at *; omega⟩
    else return ⟨found, name.rest, name.shorter⟩
termination_by ts.length
decreasing_by
  have := name.shorter
  simp only [hr, List.length_cons] at *
  omega

/-- A search directive, or the namespace of the block that stands first; and the
tokens of the statements. -/
def header (s : Scope) (ts : List Token) : Except SyntaxError (List String × List Token) :=
  match ts with
  | t :: rest =>
    if t.isWord "search" then do
      let names ← searchNames s [] rest
      return (names.value, names.rest)
    else if t.isWord "namespace" && (s.peek rest).kind = .identifier then
      .ok ([(s.peek rest).word], t :: rest)
    else fail .missingSearch t.pos
  | [] => fail .missingSearch s.last.pos

/-- The tokens before the last one and the one that ends the input, which stands
where the last token does when it is missing. -/
def splitLast (ts : List Token) : List Token × Token :=
  match ts.getLast? with
  | none => ([], ⟨.endOfInput, [], {}⟩)
  | some t => if t.kind = .endOfInput then (ts.dropLast, t) else (ts, ⟨.endOfInput, [], t.pos⟩)

end Parser

namespace Program

open EffectChain.Parser in
/-- The program a list of tokens stands for. -/
def ofTokens (options : Options) (ts : List Token) : Except SyntaxError Program := do
  let (ts, last) := splitLast ts
  let s : Scope := { last, maxDepth := options.maxDepth }
  let (search, rest) ← header s (skipSemicolons ts)
  let (stmts, found) ← Parser.statements { s with search } {} rest
  return { search, statements := stmts, vars := found.vars, render := found.render }

/-- The program of a source text; an error carries the source it was found in. -/
def parse (options : Options) (source : Bytes) : Except SyntaxError Program :=
  match Token.scan source >>= ofTokens options with
  | .ok p => .ok p
  | .error e => .error (e.withSource source)

end Program

end EffectChain
