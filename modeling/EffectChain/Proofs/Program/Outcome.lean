import EffectChain.Program.Parser

/-!
# EffectChain.Proofs.Program.Outcome

The productions of the parser without their proofs.

A production gives back its value and the tokens after it, with the proof that these are
fewer than before.  `Parser.outcome` leaves the proof out, and with it the type depends on
the tokens no more: what a production does can be written as an equation and rewritten.
-/

namespace EffectChain

namespace Parser

open Scope

/-- The value and the tokens after it. -/
def outcome {α : Type} {n : Nat} (r : Except SyntaxError (Parsed α n)) :
    Except SyntaxError (α × List Token) :=
  r.map fun x => (x.value, x.rest)

section

variable {α β γ : Type} {m n : Nat}

@[simp] theorem outcome_ok (x : Parsed α n) : outcome (.ok x) = .ok (x.value, x.rest) := rfl

@[simp] theorem outcome_error (e : SyntaxError) :
    outcome (.error e : Except SyntaxError (Parsed α n)) = .error e := rfl

@[simp] theorem outcome_fail (cause : SyntaxCause) (pos : Pos) :
    outcome (fail cause pos : Except SyntaxError (Parsed α n)) = fail cause pos := rfl

@[simp] theorem outcome_unexpected (t : Token) (wanted : String) :
    outcome (unexpected t wanted : Except SyntaxError (Parsed α n)) = unexpected t wanted := rfl

/-- What is done with a value does not look at the proof. -/
theorem outcome_bind {r : Except SyntaxError (Parsed α m)}
    {f : Parsed α m → Except SyntaxError (Parsed β n)}
    {g : α × List Token → Except SyntaxError (β × List Token)}
    (h : ∀ x, outcome (f x) = g (x.value, x.rest)) :
    outcome (r >>= f) = outcome r >>= g := by
  cases r with
  | error e => rfl
  | ok x => exact h x

/-- The outcome passes a bind whose continuations have the wanted outcomes. -/
theorem outcome_bind_of {r : Except SyntaxError γ} {f : γ → Except SyntaxError (Parsed β n)}
    {g : γ → Except SyntaxError (β × List Token)} (h : ∀ x, outcome (f x) = g x) :
    outcome (r >>= f) = r >>= g := by
  cases r with
  | error e => rfl
  | ok x => exact h x

end

/-! ## expressions -/

theorem enter_of_le {s : Scope} (h : s.depth + 1 ≤ s.maxDepth) (pos : Pos) :
    s.enter pos = .ok { s with depth := s.depth + 1 } :=
  if_neg (Nat.not_lt.2 h)

theorem outcome_expr (s : Scope) (ts : List Token) :
    outcome (expr s ts) = s.enter (s.peek ts).pos >>= fun inner => outcome (additive inner ts) := by
  rw [expr]
  exact outcome_bind_of fun _ => rfl

/-- A sum starts with a product. -/
theorem outcome_additive (s : Scope) (ts : List Token) :
    outcome (additive s ts) = outcome (multiplicative s ts) >>= fun l =>
      outcome (sums s l.1 l.2) := by
  rw [additive]
  refine outcome_bind fun l => ?_
  cases sums s l.value l.rest <;> rfl

theorem outcome_sums_nil (s : Scope) (left : Expr) : outcome (sums s left []) = .ok (left, []) := by
  rw [sums]
  rfl

/-- A sum goes on at a plus or minus, and folds what it has with the product behind it. -/
theorem outcome_sums (s : Scope) (left : Expr) (op : Token) (more : List Token) :
    outcome (sums s left (op :: more)) =
      if op.kind = .plus || op.kind = .minus then
        outcome (multiplicative s more) >>= fun r => fold op left r.1 >>= fun v =>
          outcome (sums s v r.2)
      else .ok (left, op :: more) := by
  rw [sums, apply_ite outcome]
  congr 1
  refine outcome_bind fun r => ?_
  refine outcome_bind_of fun v => ?_
  cases sums s v r.rest <;> rfl

/-- A sum ends where neither plus nor minus follows. -/
theorem sums_end {rest : List Token} (h : ∀ t ∈ rest.head?, t.kind ≠ .plus ∧ t.kind ≠ .minus)
    (s : Scope) (e : Expr) :
    outcome (sums s e rest) = .ok (e, rest) := by
  cases rest with
  | nil => exact outcome_sums_nil s e
  | cons t rest =>
    obtain ⟨hplus, hminus⟩ := h t rfl
    rw [outcome_sums, if_neg (by simp [hplus, hminus])]

/-- A product starts with a signed operand. -/
theorem outcome_multiplicative (s : Scope) (ts : List Token) :
    outcome (multiplicative s ts) = outcome (unary s ts) >>= fun l =>
      outcome (products s l.1 l.2) := by
  rw [multiplicative]
  refine outcome_bind fun l => ?_
  cases products s l.value l.rest <;> rfl

theorem outcome_products_nil (s : Scope) (left : Expr) :
    outcome (products s left []) = .ok (left, []) := by
  rw [products]
  rfl

/-- A product goes on at a star or slash, and folds what it has with the operand behind it. -/
theorem outcome_products (s : Scope) (left : Expr) (op : Token) (more : List Token) :
    outcome (products s left (op :: more)) =
      if op.kind = .star || op.kind = .slash then
        outcome (unary s more) >>= fun r => fold op left r.1 >>= fun v => outcome (products s v r.2)
      else .ok (left, op :: more) := by
  rw [products, apply_ite outcome]
  congr 1
  refine outcome_bind fun r => ?_
  refine outcome_bind_of fun v => ?_
  cases products s v r.rest <;> rfl

/-- A product ends where neither star nor slash follows. -/
theorem products_end {rest : List Token} (h : ∀ t ∈ rest.head?, t.kind ≠ .star ∧ t.kind ≠ .slash)
    (s : Scope) (e : Expr) : outcome (products s e rest) = .ok (e, rest) := by
  cases rest with
  | nil => exact outcome_products_nil s e
  | cons t rest =>
    obtain ⟨hstar, hslash⟩ := h t rfl
    rw [outcome_products, if_neg (by simp [hstar, hslash])]

/-- A sign applies to the signed operand behind it. -/
theorem outcome_unary (s : Scope) (op : Token) (more : List Token) :
    outcome (unary s (op :: more)) =
      if op.kind = .minus || op.kind = .plus then
        outcome (unary s more) >>= fun r => applySign op r.1 >>= fun v => .ok (v, r.2)
      else outcome (primary s op more) := by
  rw [unary, apply_ite outcome]
  congr 1
  refine outcome_bind fun r => ?_
  exact outcome_bind_of fun v => rfl

/-- The value, and the tokens after a closing parenthesis. -/
def closed {α : Type} (s : Scope) (x : α × List Token) : Except SyntaxError (α × List Token) :=
  outcome (s.expect .rparen x.2) >>= fun close => .ok (x.1, close.2)

/-- A closing parenthesis is consumed. -/
theorem closed_eq {α : Type} (s : Scope) (v : α) (close : Token) (rest : List Token)
    (h : close.kind = .rparen) :
    closed s (v, close :: rest) = .ok (v, rest) := by
  unfold closed expect
  dsimp only
  rw [if_pos h]
  rfl

/-- What an operand is read as, by the kind of its first token. -/
theorem outcome_primary (s : Scope) (t : Token) (rest : List Token) :
    outcome (primary s t rest) =
      match t.kind with
      | .number =>
        match Number.read? t.word with
        | some v => .ok (.number v t.word t.pos, rest)
        | none => fail (.invalidNumber t.lexeme) t.pos
      | .string => .ok (.string t.lexeme t.pos, rest)
      | .color => .ok (.color t.word (colorOf t.word) t.pos, rest)
      | .surface => .ok (.surface (surfaceOf t) t.pos, rest)
      | .closure => .ok (.closure t.word t.pos, rest)
      | .lparen => outcome (expr s rest) >>= closed s
      | .keyword =>
        if t.word = "true" || t.word = "false" then .ok (.bool (t.word = "true") t.pos, rest)
        else if t.word = "from" then
          outcome (pinnedCall s t.pos rest) >>= fun c => outcome (chainAfter s c.1 c.2)
        else unexpected t "expression"
      | .identifier => outcome (named s t rest)
      | _ => unexpected t "expression" := by
  rw [primary.eq_def]
  dsimp only
  cases hkind : t.kind <;> dsimp only
  case number =>
    rw [numeral]
    cases Number.read? t.word <;> rfl
  case lparen =>
    refine outcome_bind fun e => ?_
    dsimp only [closed]
    cases s.expect .rparen e.rest <;> rfl
  case keyword =>
    rw [apply_ite outcome, apply_ite outcome]
    congr 2
    refine outcome_bind fun c => ?_
    cases chainAfter s c.value c.rest <;> rfl
  all_goals rfl

/-- A number is read from its word. -/
theorem outcome_primary_number (s : Scope) (digits : Bytes) (pos : Pos) (rest : List Token) :
    outcome (primary s ⟨.number, digits, pos⟩ rest) =
      match Number.read? (Bytes.toString digits) with
      | some v => .ok (.number v (Bytes.toString digits) pos, rest)
      | none => fail (.invalidNumber digits) pos :=
  outcome_primary ..

theorem outcome_primary_lparen (s : Scope) (t : Token) (rest : List Token) (h : t.kind = .lparen) :
    outcome (primary s t rest) = outcome (expr s rest) >>= closed s := by
  rw [outcome_primary, h]

/-- A call followed by a dot starts a chain. -/
theorem outcome_chainAfter (s : Scope) (c : Call) (ts : List Token) :
    outcome (chainAfter s c ts) =
      if (s.peek ts).kind = .dot then
        outcome (chainTail s { calls := [c], pos := c.pos } ts) >>= fun ch =>
          .ok (.chain ch.1, ch.2)
      else .ok (.call c, ts) := by
  rw [chainAfter, apply_ite outcome]
  congr 1
  exact outcome_bind fun _ => rfl

/-- A dotted path, or a call of the operation that it names. -/
def pathAt (s : Scope) (first : Token) (ts : List Token) : Except SyntaxError (Expr × List Token) :=
  if (s.peek (dottedPath ts).2).kind = .lparen then
    outcome (call s (splitPath first.word (dottedPath ts).1).1
      (splitPath first.word (dottedPath ts).1).2 first.pos
      (dottedPath ts).2) >>= fun c => outcome (chainAfter s c.1 c.2)
  else
    .ok (if (dottedPath ts).1.isEmpty then .ident first.word first.pos
      else .member (first.word :: (dottedPath ts).1) first.pos, (dottedPath ts).2)

/-- What a first name is read as: pi, a bound name, an enum path, a namespaced call or a bare
word. -/
theorem outcome_named (s : Scope) (first : Token) (rest : List Token) :
    outcome (named s first rest) =
      if first.word = "Math" && (s.peek rest).kind = .dot && (s.peekSecond rest).word = "PI" then
        .ok (.number 3.141592653589793 "Math.PI" first.pos, rest.drop 2)
      else if s.vars.contains first.word && (s.peek rest).kind = .dot then
        outcome (chainTail s { base := some first.word, pos := first.pos } rest) >>= fun ch =>
          .ok (.chain ch.1, ch.2)
      else if s.vars.contains first.word && (s.peek rest).kind ≠ .lparen then
        .ok (.ident first.word first.pos, rest)
      else pathAt s first rest := by
  rw [named]
  dsimp only
  rw [apply_ite outcome, apply_ite outcome, apply_ite outcome, apply_ite outcome, pathAt]
  congr 2
  · exact outcome_bind fun _ => rfl
  · congr 2
    refine outcome_bind fun c => ?_
    cases chainAfter s c.value c.rest <;> rfl

/-- What is behind the parenthesis of `from(`. -/
def pinned (s : Scope) (at' : Pos) : List Token → Except SyntaxError (Call × List Token)
  | [] => unexpected s.last "namespace"
  | ns :: more =>
    if ns.kind = .identifier || ns.kind = .string then
      outcome (s.expect .comma more) >>= fun comma =>
      outcome (s.expect .identifier comma.2) >>= fun name =>
      outcome (call s name.1.word [] name.1.pos name.2) >>= fun c =>
      closed s ({ c.1 with
        ns := { name := ns.word, path := [ns.word], explicit := true, source := .pinned,
                resolved := true, search := s.search }
        pos := at' }, c.2)
    else unexpected ns "namespace"

/-- A pinned call reads its namespace, a comma and the call. -/
theorem outcome_pinnedCall (s : Scope) (at' : Pos) (ts : List Token) :
    outcome (pinnedCall s at' ts) = outcome (s.expect .lparen ts) >>= fun paren =>
      pinned s at' paren.2 := by
  rw [pinnedCall]
  refine outcome_bind fun paren => ?_
  split
  · rename_i hr
    rw [hr]
    rfl
  · rename_i ns more hr
    have hpinned : pinned s at' paren.rest = pinned s at' (ns :: more) := congrArg _ hr
    refine Eq.trans ?_ hpinned.symm
    rw [apply_ite outcome, pinned]
    congr 1
    refine outcome_bind fun comma => ?_
    refine outcome_bind fun name => ?_
    refine outcome_bind fun c => ?_
    dsimp only [closed]
    cases s.expect .rparen c.rest <;> rfl

/-- A call reads its parenthesis and its arguments one level deeper. -/
theorem outcome_call (s : Scope) (name : String) (qual : List String) (at' : Pos)
    (ts : List Token) :
    outcome (call s name qual at' ts) = outcome (s.expect .lparen ts) >>= fun paren =>
      s.enter paren.1.pos >>= fun inner =>
      outcome (arguments inner [] [] paren.2) >>= fun args =>
      closed s ({ name, args := args.1.1, kwargs := args.1.2, ns := s.namespaceRef qual,
                  pos := at' }, args.2) := by
  rw [call]
  refine outcome_bind fun paren => ?_
  refine outcome_bind_of fun inner => ?_
  refine outcome_bind fun args => ?_
  dsimp only [closed]
  cases s.expect .rparen args.rest <;> rfl

/-- A chain ends where no dot follows. -/
theorem chainTail_end {rest : List Token} (h : ∀ t ∈ rest.head?, t.kind ≠ .dot) (s : Scope)
    (ch : Chain) :
    outcome (chainTail s ch rest) = .ok (ch, rest) := by
  rw [chainTail.eq_def]
  cases rest with
  | nil => rfl
  | cons t rest =>
    dsimp only
    rw [if_pos (h t rfl)]
    rfl

/-- A dot at the end of the input wants a call. -/
theorem outcome_chainTail_dot (s : Scope) (ch : Chain) (dot : Token) (h : dot.kind = .dot) :
    outcome (chainTail s ch [dot]) = unexpected s.last "call" := by
  rw [chainTail.eq_def]
  dsimp only
  rw [if_neg (fun hn => hn h)]
  rfl

/-- What follows a dot in a chain: a pinned call, an `out` or a call. -/
theorem outcome_chainTail (s : Scope) (ch : Chain) (dot t : Token) (rest : List Token)
    (h : dot.kind = .dot) :
    outcome (chainTail s ch (dot :: t :: rest)) =
      if t.isWord "from" then
        outcome (pinnedCall s t.pos rest) >>= fun c =>
        outcome (chainTail s { ch with calls := ch.calls ++ [c.1] } c.2)
      else if t.kind ≠ .identifier then unexpected t "call"
      else if t.word = "out" && (s.peek rest).kind = .lparen then
        outcome (outTarget s t.pos (rest.drop 1)) >>= fun target =>
        if (s.peek target.2).kind = .dot then fail .outMidChain (s.peek target.2).pos
        else .ok ({ ch with out := some target.1 }, target.2)
      else
        outcome (call s (splitPath t.word (dottedPath rest).1).1
          (splitPath t.word (dottedPath rest).1).2 t.pos
          (dottedPath rest).2) >>= fun c =>
        outcome (chainTail s { ch with calls := ch.calls ++ [c.1] } c.2) := by
  rw [chainTail.eq_def]
  dsimp only
  rw [if_neg (fun hn => hn h), apply_ite outcome, apply_ite outcome, apply_ite outcome]
  congr 1
  · refine outcome_bind fun c => ?_
    cases chainTail s { ch with calls := ch.calls ++ [c.value] } c.rest <;> rfl
  · congr 2
    · refine outcome_bind fun target => ?_
      exact apply_ite outcome ..
    · refine outcome_bind fun c => ?_
      cases chainTail s { ch with calls := ch.calls ++ [c.value] } c.rest <;> rfl

/-- An `out` names a surface or holds an expression. -/
theorem outcome_outTarget (s : Scope) (at' : Pos) (ts : List Token) :
    outcome (outTarget s at' ts) =
      if (s.peek ts).kind = .rparen then .ok (.surface {} at', ts.drop 1)
      else outcome (expr s ts) >>= closed s := by
  rw [outTarget, apply_ite outcome]
  congr 1
  refine outcome_bind fun e => ?_
  dsimp only [closed]
  cases s.expect .rparen e.rest <;> rfl

/-! ## arguments -/

/-- The arguments behind one that was read. -/
def furtherArguments (s : Scope) (args : List Expr) (kwargs : List Keyword) :
    List Token → Except SyntaxError ((List Expr × List Keyword) × List Token)
  | [] => .ok ((args, kwargs), [])
  | c :: more =>
      if c.kind = .comma then outcome (arguments s args kwargs more)
        else .ok ((args, kwargs), c :: more)

/-- Behind an argument a comma goes on and a closing parenthesis ends. -/
theorem outcome_further {s : Scope} {args : List Expr} {kwargs : List Keyword} {c : Token}
    {rest more : List Token} (hrest : rest = c :: more) {n : Nat}
    {hlt : ∀ z : Parsed (List Expr × List Keyword) (more.length + 1), z.rest.length < n}
    {hlt' : rest.length < n} :
    outcome (if c.kind = .comma then arguments s args kwargs more >>= fun z =>
      return ⟨z.value, z.rest, hlt z⟩
      else return ⟨(args, kwargs), rest, hlt'⟩) = furtherArguments s args kwargs rest := by
  subst hrest
  rw [apply_ite outcome, furtherArguments]
  congr 1
  cases arguments s args kwargs more <;> rfl

/-- One argument is read, by keyword or by position, and what follows decides on the next. -/
theorem outcome_arguments (s : Scope) (args : List Expr) (kwargs : List Keyword) (ts : List Token) :
    outcome (arguments s args kwargs ts) =
      let t := s.peek ts
      let keyword := t.kind = .identifier && (s.peekSecond ts).kind = .colon
      if t.kind = .rparen then .ok ((args, kwargs), ts)
      else if (keyword && !args.isEmpty) || (!keyword && !kwargs.isEmpty)
        then fail .mixedArguments t.pos
      else if keyword then
        if kwargs.any (·.name = t.word) then fail (.duplicateArgument t.lexeme) t.pos
        else outcome (expr s (ts.drop 2)) >>= fun v =>
          furtherArguments s args (kwargs ++ [⟨t.word, v.1, t.pos⟩]) v.2
      else outcome (expr s ts) >>= fun v => furtherArguments s (args ++ [v.1]) kwargs v.2 := by
  rw [arguments.eq_def]
  dsimp only
  split
  · rfl
  · split
    · rfl
    · split
      · split
        · rfl
        · refine outcome_bind fun v => ?_
          split
          · exact outcome_further ‹_›
          · rename_i hr
            rw [hr]
            rfl
      · refine outcome_bind fun v => ?_
        split
        · exact outcome_further ‹_›
        · rename_i hr
          rw [hr]
          rfl

/-! ## statements -/

/-- A binding is a name, an assignment and an expression. -/
theorem outcome_letBinding (s : Scope) (at' : Pos) (ts : List Token) :
    outcome (letBinding s at' ts) = outcome (s.expect .identifier ts) >>= fun name =>
      outcome (s.expect .assign name.2) >>= fun eq =>
      outcome (expr s eq.2) >>= fun v => .ok ((name.1.word, .bind name.1.word v.1 at'), v.2) := by
  unfold letBinding
  refine outcome_bind fun name => ?_
  refine outcome_bind fun eq => ?_
  exact outcome_bind fun v => rfl

/-- A `render` stands once, outside of every block, and names a surface. -/
theorem outcome_renderTarget (s : Scope) (found : Found) (at' : Pos) (ts : List Token) :
    outcome (renderTarget s found at' ts) =
      if s.nested then fail .renderNested at'
      else if found.render.isSome then fail .duplicateRender at'
      else outcome (s.expect .lparen ts) >>= fun paren =>
        outcome (s.expect .surface paren.2) >>= fun target =>
        closed s ((surfaceOf target.1, target.1.pos), target.2) := by
  unfold renderTarget
  rw [apply_ite outcome, apply_ite outcome]
  congr 2
  refine outcome_bind fun paren => ?_
  refine outcome_bind fun target => ?_
  dsimp only [closed]
  cases s.expect .rparen target.rest <;> rfl

/-- The statement that an expression is, where it is one. -/
def chainOf (pos : Pos) : Expr → Except SyntaxError Stmt
  | .chain ch => .ok (.run ch ch.pos)
  | .call c => .ok (.run { calls := [c], pos := c.pos } c.pos)
  | _ => fail .notAChain pos

/-- An expression stands as a statement when it is a chain. -/
theorem outcome_chainStatement (s : Scope) (ts : List Token) :
    outcome (chainStatement s ts) = outcome (expr s ts) >>= fun e =>
      chainOf (s.peek ts).pos e.1 >>= fun st => .ok (st, e.2) := by
  unfold chainStatement
  refine outcome_bind fun e => ?_
  dsimp only
  cases e.value <;> rfl

/-- A block opens one level deeper and ends its variables at the brace. -/
theorem outcome_block (s : Scope) (found : Found) (ts : List Token) :
    outcome (block s found ts) = outcome (s.expect .lbrace ts) >>= fun brace =>
      s.enter brace.1.pos >>= fun inner =>
        outcome (body { inner with nested := true } found brace.2) := by
  rw [block]
  refine outcome_bind fun brace => ?_
  refine outcome_bind_of fun inner => ?_
  cases body { inner with nested := true } found brace.rest <;> rfl

/-- The statements up to the brace, where no semicolon comes first. -/
def bodyAt (s : Scope) (found : Found) :
    List Token → Except SyntaxError ((List Stmt × Found) × List Token)
  | [] => unexpected s.last "\x7d"
  | t :: rest =>
    if t.kind = .rbrace then .ok (([], found), rest)
    else if t.kind = .endOfInput then unexpected t "\x7d"
    else outcome (statement s found (t :: rest)) >>= fun st =>
      outcome (body s st.1.2 st.2) >>= fun more => .ok ((st.1.1 ++ more.1.1, more.1.2), more.2)

/-- The statements of a block start behind the semicolons. -/
theorem outcome_body (s : Scope) (found : Found) (ts : List Token) :
    outcome (body s found ts) = bodyAt s found (skipSemicolons ts) := by
  rw [body]
  split
  · rename_i hr
    rw [hr]
    rfl
  · rename_i t rest hr
    have hbody : bodyAt s found (skipSemicolons ts) = bodyAt s found (t :: rest) := congrArg _ hr
    refine Eq.trans ?_ hbody.symm
    rw [apply_ite outcome, apply_ite outcome, bodyAt]
    congr 2
    refine outcome_bind fun st => ?_
    exact outcome_bind fun more => rfl

/-- The arms behind the ones that were read. -/
def furtherArms (s : Scope) (start : Pos) (arms : List Branch) (found : Found) :
    List Token → Except SyntaxError ((Stmt × Found) × List Token)
  | [] => .ok ((.choose arms none start, found), [])
  | t :: rest =>
    if t.isWord "elif" then outcome (branches s found start arms rest t.pos)
    else if t.isWord "else" then
      outcome (block s found rest) >>= fun b => .ok ((.choose arms (some b.1.1) start, b.1.2), b.2)
    else .ok ((.choose arms none start, found), t :: rest)

/-- Behind an arm come further arms. -/
theorem outcome_branches (s : Scope) (found : Found) (start : Pos) (arms : List Branch)
    (ts : List Token) (at' : Pos) :
    outcome (branches s found start arms ts at') =
      outcome (expr { s with vars := found.vars } ts) >>= fun cond =>
      outcome (block { s with vars := found.vars } found cond.2) >>= fun body =>
      furtherArms { s with vars := found.vars } start (arms ++ [⟨cond.1, body.1.1, at'⟩]) body.1.2
        body.2 := by
  rw [branches]
  refine outcome_bind fun cond => ?_
  refine outcome_bind fun body => ?_
  dsimp only
  split
  · rename_i hr
    rw [hr]
    rfl
  · rename_i t rest hr
    refine Eq.trans ?_ (congrArg (furtherArms _ _ _ _) hr).symm
    rw [apply_ite outcome, apply_ite outcome, furtherArms]
    congr 1
    · cases branches { s with vars := found.vars } body.value.2 start
        (arms ++ [⟨cond.value, body.value.1, at'⟩]) rest
        t.pos <;> rfl
    · congr 1
      · exact outcome_bind fun b => rfl
      · rw [← hr]
        rfl

/-- A loop after the word `loop`, with a count or without. -/
def loopAt (s : Scope) (found : Found) (at' : Pos) (ts : List Token) :
    Except SyntaxError ((List Stmt × Found) × List Token) :=
  if (s.peek ts).kind = .lbrace then
    outcome (block { s with inLoop := true } found ts) >>= fun body =>
      .ok (([.repeated none body.1.1 at'], body.1.2), body.2)
  else outcome (expr s ts) >>= fun count =>
    outcome (block { s with inLoop := true } found count.2) >>= fun body =>
      .ok (([.repeated (some count.1) body.1.1 at'], body.1.2), body.2)

/-- A namespace block after the word `namespace`. -/
def namespaceAt (s : Scope) (found : Found) (ts : List Token) :
    Except SyntaxError ((List Stmt × Found) × List Token) :=
  outcome (s.expect .identifier ts) >>= fun name =>
  outcome (s.expect .lbrace name.2) >>= fun brace =>
  s.enter brace.1.pos >>= fun inner =>
    outcome (body { inner with block := some name.1.word } found brace.2)

/-- What a statement is read as, by its first token. -/
theorem outcome_statement (s : Scope) (found : Found) (t : Token) (rest : List Token) :
    outcome (statement s found (t :: rest)) =
      let s := { s with vars := found.vars }
      if t.isWord "let" then
        outcome (letBinding s t.pos rest) >>= fun b =>
          let vars := if found.vars.contains b.1.1 then found.vars else found.vars ++ [b.1.1]
          .ok (([b.1.2], { found with vars }), b.2)
      else if t.isWord "if" then
        outcome (branches s found t.pos [] rest t.pos) >>= fun z => .ok (([z.1.1], z.1.2), z.2)
      else if t.isWord "loop" then loopAt s found t.pos rest
      else if t.isWord "break" || t.isWord "continue" then
        if s.inLoop then
          .ok (([if t.isWord "break" then .leaveLoop t.pos else .nextRound t.pos], found), rest)
        else fail (.flowOutsideLoop t.word) t.pos
      else if t.isWord "return" then .ok (([.finish t.pos], found), rest)
      else if t.isWord "render" then
        outcome (renderTarget s found t.pos rest) >>= fun target =>
          .ok (([], { found with render := some target.1 }), target.2)
      else if t.isWord "namespace" then namespaceAt s found rest
      else if t.isWord "search" then fail .searchNotFirst t.pos
      else outcome (chainStatement s (t :: rest)) >>= fun st => .ok (([st.1], found), st.2) := by
  rw [statement]
  dsimp only
  rw [apply_ite outcome]
  refine ite_congr rfl (fun _ => outcome_bind fun b => rfl) fun _ => ?_
  rw [apply_ite outcome]
  refine ite_congr rfl (fun _ => outcome_bind fun z => rfl) fun _ => ?_
  rw [apply_ite outcome]
  refine ite_congr rfl (fun _ => ?_) fun _ => ?_
  · rw [apply_ite outcome]
    refine ite_congr rfl (fun _ => outcome_bind fun body => rfl) fun _ => ?_
    refine outcome_bind fun count => ?_
    exact outcome_bind fun body => rfl
  rw [apply_ite outcome]
  refine ite_congr rfl (fun _ => apply_ite outcome ..) fun _ => ?_
  rw [apply_ite outcome]
  refine ite_congr rfl (fun _ => rfl) fun _ => ?_
  rw [apply_ite outcome]
  refine ite_congr rfl (fun _ => outcome_bind fun target => rfl) fun _ => ?_
  rw [apply_ite outcome]
  refine ite_congr rfl (fun _ => ?_) fun _ => ?_
  · refine outcome_bind fun name => ?_
    refine outcome_bind fun brace => ?_
    refine outcome_bind_of fun inner => ?_
    cases body { inner with block := some name.value.word } found brace.rest <;> rfl
  rw [apply_ite outcome]
  exact ite_congr rfl (fun _ => rfl) fun _ => outcome_bind fun st => rfl

/-! ## programs -/

/-- The statements up to the end of the input, where no semicolon comes first. -/
def statementsAt (s : Scope) (found : Found) : List Token → Except SyntaxError (List Stmt × Found)
  | [] => .ok ([], found)
  | t :: rest =>
    if t.kind = .endOfInput then .ok ([], found)
    else outcome (statement s found (t :: rest)) >>= fun st =>
      statements s st.1.2 st.2 >>= fun more => .ok (st.1.1 ++ more.1, more.2)

/-- The statements of a program start behind the semicolons. -/
theorem statements_eq (s : Scope) (found : Found) (ts : List Token) :
    statements s found ts = statementsAt s found (skipSemicolons ts) := by
  rw [statements]
  split
  · rename_i hr
    rw [hr]
    rfl
  · rename_i t rest hr
    refine Eq.trans ?_ (congrArg (statementsAt s found) hr).symm
    refine ite_congr rfl (fun _ => rfl) fun _ => ?_
    cases statement s found (t :: rest) <;> rfl

/-- The names behind one of a search directive. -/
def furtherNames (s : Scope) (found : List String) :
    List Token → Except SyntaxError (List String × List Token)
  | [] => .ok (found, [])
  | c :: rest =>
      if c.kind = .comma then outcome (searchNames s found rest) else .ok (found, c :: rest)

/-- The names of a search order are read one by one, each kept once. -/
theorem outcome_searchNames (s : Scope) (found : List String) (ts : List Token) :
    outcome (searchNames s found ts) = outcome (s.expect .identifier ts) >>= fun name =>
      furtherNames s (if found.contains name.1.word then found else found ++ [name.1.word])
        name.2 := by
  rw [searchNames]
  refine outcome_bind fun name => ?_
  dsimp only
  split
  · rename_i hr
    rw [hr]
    rfl
  · rename_i c rest hr
    refine Eq.trans ?_ (congrArg (furtherNames s _) hr).symm
    rw [apply_ite outcome, furtherNames]
    congr 1
    · cases searchNames s (if found.contains name.value.word then found else found ++
        [name.value.word]) rest <;> rfl
    · rw [← hr]
      rfl

/-- A header that says `search` lists names. -/
theorem header_search (s : Scope) {t : Token} (h : t.isWord "search" = true) (rest : List Token) :
    header s (t :: rest) = outcome (searchNames s [] rest) := by
  unfold header
  dsimp only
  rw [if_pos h]
  cases searchNames s [] rest <;> rfl

/-- Without `search` the namespace of the program is its search order. -/
theorem header_namespace (s : Scope) {t : Token} (h : t.isWord "search" = false)
    (rest : List Token) :
    header s (t :: rest) = if t.isWord "namespace" && (s.peek rest).kind = .identifier then
      .ok ([(s.peek rest).word], t :: rest) else fail .missingSearch t.pos := by
  unfold header
  dsimp only
  rw [if_neg (by simp [h])]

end Parser

/-- A source that is scanned is parsed as its tokens are; only the source is added to an error. -/
theorem Program.parse_of_scan {options : Options} {source : Bytes} {ts : List Token}
    (h : Token.scan source = .ok ts) :
    parse options source = (ofTokens options ts).mapError (·.withSource source) := by
  have htokens : (Token.scan source >>= ofTokens options) = ofTokens options ts := by
    rw [h]
    rfl
  rw [parse, htokens]
  cases ofTokens options ts <;> rfl

end EffectChain
