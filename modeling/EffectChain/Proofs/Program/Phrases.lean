import EffectChain.Proofs.Program.Literal
import EffectChain.Proofs.Program.Outcome

/-!
# EffectChain.Proofs.Program.Phrases

Texts that are read wherever they stand.

A phrase is a text that is tokens of its own, whatever stands behind it as long as that ends it
(`Lexer.Phrase`).  The tokens of a phrase are an expression (`Parser.Denotes`), the beginning of a
chain or a statement; nothing but the nesting can keep the parser from reading it, and phrases are
put together from phrases.
-/

namespace EffectChain

/-- Texts put together begin with the first one. -/
theorem exists_intercalate_cons (sep s : String) (ss : List String) :
    ∃ rest, sep.intercalate (s :: ss) = s ++ rest := by
  cases ss with
  | nil => exact ⟨"", by rw [String.intercalate_singleton, String.append_empty]⟩
  | cons t ss =>
      exact ⟨sep ++ sep.intercalate (t :: ss),
        by rw [String.intercalate_cons_cons, String.append_assoc]⟩

theorem Bytes.ofString_append (s t : String) : ofString (s ++ t) = ofString s ++ ofString t := by
  rw [ofString, String.toList_append, Utf8.encode_append]
  rfl

namespace Lexer

instance (n : String) : Decidable (IsWord n) :=
  decidable_of_iff (n.toList.head?.any isNameStart = true ∧ n.toList.all isNamePart = true)
    ⟨fun ⟨hstart, hpart⟩ => ⟨by cases hn : n.toList <;> simp_all, List.all_eq_true.1 hpart⟩,
      fun ⟨⟨c, cs, hn, hstart⟩, hpart⟩ => ⟨by simp [hn, hstart], List.all_eq_true.2 hpart⟩⟩

instance (n : String) : Decidable (IsName n) :=
  decidable_of_iff (IsWord n ∧ surfaceWord? n.toList = none ∧ isKeyword n = false)
    ⟨fun ⟨hword, hsurface, hkeyword⟩ => ⟨hword, hsurface, hkeyword⟩,
      fun h => ⟨h.toIsWord, h.surface, h.keyword⟩⟩

/-! ## phrases -/

/-- The text is tokens of its own where what stands behind it ends it, and they have the property.
-/
def Phrase (ends : Bytes → Prop) (text : String) (Q : List Token → Prop) : Prop :=
  ∀ pos after, ends after → ∃ ts pos',
    tokensFrom ⟨pos, Bytes.ofString text ++ after⟩ = (tokensFrom ⟨pos', after⟩).map (ts ++ ·) ∧ Q ts

/-- The tokens are one, of the kind and with the text. -/
def IsToken (kind : TokenKind) (lex : Bytes) (ts : List Token) : Prop :=
  ∃ pos, ts = [⟨kind, lex, pos⟩]

namespace Phrase

variable {ends ends' : Bytes → Prop} {text text' : String} {Q Q' : List Token → Prop}

/-- A phrase may be followed by fewer texts and say less of its tokens. -/
theorem mono (h : Phrase ends text Q) (hends : ∀ after, ends' after → ends after)
    (hQ : ∀ ts, Q ts → Q' ts) :
    Phrase ends' text Q' := by
  intro pos after hafter
  obtain ⟨ts, pos', hscan, hts⟩ := h pos after (hends after hafter)
  exact ⟨ts, pos', hscan, hQ ts hts⟩

theorem nil : Phrase ends "" (· = []) := by
  refine fun pos after _ => ⟨[], pos, ?_, rfl⟩
  change tokensFrom ⟨pos, after⟩ = _
  cases tokensFrom ⟨pos, after⟩ <;> rfl

/-- A phrase behind a phrase that it ends. -/
theorem append (h : Phrase ends text Q) (h' : Phrase ends' text' Q')
    (hends : ∀ after, ends' after → ends (Bytes.ofString text' ++ after)) :
    Phrase ends' (text ++ text') fun ts => ∃ us vs, ts = us ++ vs ∧ Q us ∧ Q' vs := by
  intro pos after hafter
  obtain ⟨us, pos₁, hfirst, hus⟩ := h pos (Bytes.ofString text' ++ after) (hends after hafter)
  obtain ⟨vs, pos₂, hsecond, hvs⟩ := h' pos₁ after hafter
  refine ⟨us ++ vs, pos₂, ?_, us, vs, rfl, hus, hvs⟩
  rw [Bytes.ofString_append, List.append_assoc, hfirst, hsecond]
  cases tokensFrom ⟨pos₂, after⟩ with
  | error e => rfl
  | ok more => simp [Except.map]

/-- What is no token does not count. -/
theorem append_gap (h : Phrase ends text Q) (h' : Phrase ends' text' (· = []))
    (hends : ∀ after, ends' after → ends (Bytes.ofString text' ++ after)) :
    Phrase ends' (text ++ text') Q :=
  (h.append h' hends).mono (fun _ => id) (by rintro _ ⟨us, vs, rfl, hus, rfl⟩; simpa using hus)

/-- Blanks in front of a phrase leave no token. -/
theorem gap_append (h : Phrase (fun _ => True) text (· = [])) (h' : Phrase ends' text' Q') :
    Phrase ends' (text ++ text') Q' :=
  (h.append h' fun _ _ => trivial).mono (fun _ => id)
    (by rintro _ ⟨us, vs, rfl, rfl, hvs⟩; exact hvs)

/-- A blank or a newline is no token. -/
theorem blank {b : UInt8} (hb : Bytes.ofString text = [b]) (h : b = 32 ∨ b = 10) :
    Phrase ends text (· = []) := by
  intro pos after _
  refine ⟨[], pos.past [b], ?_, rfl⟩
  have hmap : ∀ r : Except SyntaxError (List Token), r.map ([] ++ ·) = r :=
    fun r => by cases r <;> rfl
  rw [hmap, hb]
  rcases h with rfl | rfl
  all_goals
    rw [tokensFrom]
    rfl

theorem space : Phrase ends " " (· = []) := blank rfl (.inl rfl)

theorem newline : Phrase ends "\n" (· = []) := blank rfl (.inr rfl)

/-- A text that is scanned as one token is a phrase of that token. -/
theorem of_scans {kind : TokenKind} {lex : Bytes} (h : Scans ends (Bytes.ofString text) kind lex) :
    Phrase ends text (IsToken kind lex) := by
  intro pos after hafter
  exact ⟨_, _, h pos after hafter, pos, rfl⟩

/-- A sign is one token. -/
theorem sign {b : UInt8} {kind : TokenKind} (hb : Bytes.ofString text = [b])
    (h : ∀ after, ends after → Lexer.gap b after = .ok none ∧ lexeme b after = .ok ⟨kind, [b], 0⟩) :
    Phrase ends text (IsToken kind [b]) := by
  refine of_scans fun pos after hafter => ?_
  rw [hb]
  exact @tokensFrom_token b [] after [b] kind pos (h after hafter).1 (h after hafter).2

theorem comma : Phrase ends "," (IsToken .comma [44]) := sign rfl fun _ _ => ⟨rfl, rfl⟩

theorem colon : Phrase ends ":" (IsToken .colon [58]) := sign rfl fun _ _ => ⟨rfl, rfl⟩

theorem minus : Phrase ends "-" (IsToken .minus [45]) := sign rfl fun _ _ => ⟨rfl, rfl⟩

theorem rparen : Phrase ends ")" (IsToken .rparen [41]) := sign rfl fun _ _ => ⟨rfl, rfl⟩

theorem lbrace : Phrase ends "\x7b" (IsToken .lbrace [123]) := sign rfl fun _ _ => ⟨rfl, rfl⟩

theorem rbrace : Phrase ends "\x7d" (IsToken .rbrace [125]) := sign rfl fun _ _ => ⟨rfl, rfl⟩

/-- A point that begins no number. -/
theorem dot : Phrase (fun after => startsWith isDigit after = false) "." (IsToken .dot [46]) :=
  sign rfl fun after hafter => ⟨rfl, by
    unfold lexeme
    dsimp only
    rw [if_neg (by decide), if_neg (by rw [hafter]; decide), if_neg (by decide), if_neg (by decide),
      if_neg (by decide)]
    rfl⟩

/-- A parenthesis that begins no closure. -/
theorem lparen : Phrase (fun after => closureHead? after = none) "(" (IsToken .lparen [40]) :=
  sign rfl fun after hafter => ⟨rfl, by
    unfold lexeme
    rw [hafter]
    have hnumber : (isDigit (Char.ofUInt8 40) || decide (Char.ofUInt8 40 = '.') &&
        startsWith isDigit after) = false := by
      rfl
    dsimp only
    rw [if_neg (by decide), if_neg (by rw [hnumber]; decide), if_neg (by decide),
      if_neg (by decide), if_pos (by decide)]⟩

/-- A name that is no keyword and no surface is one identifier. -/
theorem name {n : String} (h : IsName n) :
    Phrase EndsWord n (IsToken .identifier (Bytes.ofString n)) :=
  of_scans (scans_name h)

/-- A keyword is one token. -/
theorem keyword {n : String} (h : IsWord n) (hsurface : surfaceWord? n.toList = none)
    (hkeyword : isKeyword n = true) :
    Phrase EndsWord n (IsToken .keyword (Bytes.ofString n)) := by
  refine of_scans fun pos after hafter => ?_
  obtain ⟨b, bs, hbytes, hgap, hlexeme⟩ := lexeme_word h hafter
  simp only [hsurface, hkeyword, if_true] at hlexeme
  rw [hbytes]
  exact tokensFrom_token pos hgap hlexeme

/-- A colour literal is one token. -/
theorem color {raw : String} (h : SpellsColor raw) :
    Phrase EndsWord raw (IsToken .color (Bytes.ofString raw)) := by
  obtain ⟨cs, hraw, hcount, hdigits⟩ := h
  have hpart : ∀ c ∈ cs, isNamePart c = true := fun c hc => isNamePart_of_isHex (hdigits c hc)
  have hchars := Utf8.map_encode_ascii fun c hc => lt_of_isNamePart (hpart c hc)
  have hlength : (Utf8.encode cs).length = cs.length := by rw [← List.length_map, hchars]
  have hbytes : Bytes.ofString raw = 35 :: Utf8.encode cs := by
    rw [Bytes.ofString, hraw]
    rfl
  refine of_scans fun pos after hafter => ?_
  have hrun : runLength isHex (Utf8.encode cs ++ after) = cs.length := by
    rw [runLength_append, hlength]
    · intro b hb
      exact hdigits _ (hchars ▸ List.mem_map_of_mem hb)
    · intro b hb
      cases hhex : isHex (Char.ofUInt8 b) with
      | false => rfl
      | true => exact absurd (isNamePart_of_isHex hhex) (by simp [hafter b hb])
  have hends : startsWith isNamePart after = false := by
    cases after with
    | nil => rfl
    | cons b rest => exact hafter b rfl
  have hsize : colorDigits (Utf8.encode cs ++ after) = cs.length := by
    unfold colorDigits
    dsimp only
    rw [hrun, ← hlength, List.drop_left, hends, hlength, if_pos (by simpa [or_assoc] using hcount)]
  have hne : cs.length ≠ 0 := by omega
  rw [hbytes]
  refine tokensFrom_token pos ?_ ?_
  · change Except.ok (if colorDigits _ = 0 then _ else none) = _
    rw [hsize, if_neg hne]
  · change Except.ok (Lexed.verbatim .color _ (1 + colorDigits _)) = _
    rw [hsize, Lexed.verbatim, ← List.cons_append, Nat.add_comm, ← hlength,
      ← List.length_cons (a := (35 : UInt8)), List.take_left, List.length_cons, Nat.add_sub_cancel]

/-- A closure, and a blank behind it if there is one. -/
theorem closure {source : String} (h : ClosureSource source) {blanks : String}
    (hblanks : blanks = "" ∨ blanks = " ") :
    Phrase (closureBodyLength 0 · = 0) ("() => " ++ source ++ blanks)
      (IsToken .closure (Bytes.ofString source)) := by
  refine of_scans fun pos after hafter => ?_
  have hbytes : Bytes.ofString ("() => " ++ source ++ blanks) =
      40 :: (Bytes.ofString ") => " ++ Bytes.ofString source ++ Bytes.ofString blanks) := by
    rw [Bytes.ofString_append, Bytes.ofString_append]
    rfl
  have hblank : Bytes.ofString blanks = [] ∨ Bytes.ofString blanks = [32] := by
    rcases hblanks with rfl | rfl
    · exact .inl rfl
    · exact .inr rfl
  rw [hbytes]
  refine tokensFrom_token pos rfl ?_
  rw [lexeme_closure h hblank hafter]
  simp [show (Bytes.ofString ") => ").length = 5 from rfl, Nat.add_assoc]

end Phrase

end Lexer

/-- The expression is a chain of the calls. -/
def Expr.Chains (cs : List Call) (out : Option Expr) (e : Expr) : Prop :=
  (∃ c, cs = [c] ∧ out = none ∧ e = .call c) ∨
    (2 ≤ cs.length ∨ out ≠ none) ∧ ∃ pos, e = .chain { calls := cs, out, pos }

namespace Parser

open Scope Lexer

/-! ## reading -/

/-- What the parser knows outside of bindings and namespace blocks. -/
structure Scope.Open (search : List String) (s : Scope) : Prop where
  vars : s.vars = []
  block : s.block = none
  search : s.search = search
  last : s.last.kind = .endOfInput

/-- What is given has the property and the rest is left, unless the nesting is too deep. -/
def Gives {α : Type} (P : α → Prop) (rest : List Token) (r : Except SyntaxError (α × List Token)) :
    Prop :=
  (∃ x, r = .ok (x, rest) ∧ P x) ∨ ∃ pos, r = fail .nestingTooDeep pos

namespace Gives

variable {α β : Type} {P P' : α → Prop} {Q : β → Prop} {rest rest' : List Token}
  {r : Except SyntaxError (α × List Token)}

theorem ok {x : α} (h : P x) : Gives P rest (.ok (x, rest)) := .inl ⟨x, rfl, h⟩

theorem mono (h : Gives P rest r) (hP : ∀ x, P x → P' x) : Gives P' rest r :=
  h.imp_left fun ⟨x, hr, hx⟩ => ⟨x, hr, hP x hx⟩

theorem bind (h : Gives P rest r) {f : α × List Token → Except SyntaxError (β × List Token)}
    (hf : ∀ x, P x → Gives Q rest' (f (x, rest))) : Gives Q rest' (r >>= f) := by
  rcases h with ⟨x, rfl, hx⟩ | ⟨pos, rfl⟩
  · exact hf x hx
  · exact .inr ⟨pos, rfl⟩

/-- What is given one level further down is given here, or the nesting is too deep. -/
theorem enter {s : Scope} {pos : Pos} {f : Scope → Except SyntaxError (α × List Token)}
    (h : Gives P rest (f { s with depth := s.depth + 1 })) : Gives P rest (s.enter pos >>= f) := by
  unfold Scope.enter
  split
  · exact .inr ⟨pos, rfl⟩
  · exact h

end Gives

variable {search : List String} {s : Scope}

namespace Scope.Open

theorem deeper (h : s.Open search) (depth : Nat) : { s with depth }.Open search :=
  ⟨h.vars, h.block, h.search, h.last⟩

theorem namespaceRef (h : s.Open search) :
    s.namespaceRef [] = { resolved := !search.isEmpty, search } := by
  unfold Scope.namespaceRef
  rw [h.block, h.search]

end Scope.Open

/-- No operator, no point and no parenthesis that opens is next. -/
def Halts (ts : List Token) : Prop :=
  ∀ t ∈ ts.head?, t.kind ≠ .plus ∧ t.kind ≠ .minus ∧ t.kind ≠ .star ∧ t.kind ≠ .slash ∧
    t.kind ≠ .dot ∧ t.kind ≠ .lparen

/-- No expression goes on over a separator, a bracket or a new statement. -/
theorem Halts.cons {t : Token} {rest : List Token}
    (h : t.kind = .comma ∨ t.kind = .rparen ∨ t.kind = .lbrace ∨
    t.kind = .rbrace ∨ t.kind = .identifier ∨ t.kind = .keyword) : Halts (t :: rest) := by
  intro x hx
  obtain rfl := Option.some.inj hx
  rcases h with h | h | h | h | h | h <;> rw [h] <;> decide

theorem Halts.peek {rest : List Token} (h : Halts rest) (hs : s.Open search) :
    (s.peek rest).kind ≠ .dot ∧ (s.peek rest).kind ≠ .lparen := by
  cases rest with
  | nil =>
    rw [Scope.peek, List.headD_nil, hs.last]
    decide
  | cons t rest => exact (h t rfl).2.2.2.2

/-- The tokens are an expression with the property. -/
def Denotes (search : List String) (P : Expr → Prop) (ts : List Token) : Prop :=
  ∀ (s : Scope) rest, s.Open search → Halts rest → Gives P rest (outcome (expr s (ts ++ rest)))

theorem Denotes.mono {P P' : Expr → Prop} {ts : List Token} (h : Denotes search P ts)
    (hP : ∀ e, P e → P' e) :
    Denotes search P' ts := fun s rest hs hrest => (h s rest hs hrest).mono hP

/-- An operand alone is the expression. -/
theorem gives_expr {P : Expr → Prop} {ts rest : List Token} (hs : s.Open search)
    (hrest : Halts rest) (h : ∀ s : Scope, s.Open search → Gives P rest (outcome (unary s ts))) :
    Gives P rest (outcome (expr s ts)) := by
  rw [outcome_expr]
  refine .enter ?_
  have hproduct : Gives P rest (outcome (multiplicative { s with depth := s.depth + 1 } ts)) := by
    rw [outcome_multiplicative]
    refine (h _ (hs.deeper _)).bind fun e he => ?_
    rw [products_end fun t ht => ⟨(hrest t ht).2.2.1, (hrest t ht).2.2.2.1⟩]
    exact .ok he
  rw [outcome_additive]
  refine hproduct.bind fun e he => ?_
  rw [sums_end fun t ht => ⟨(hrest t ht).1, (hrest t ht).2.1⟩]
  exact .ok he

/-- Without a sign in front, an operand is read as it stands. -/
theorem unary_primary {t : Token} {rest : List Token} (h : t.kind ≠ .minus ∧ t.kind ≠ .plus) :
    outcome (unary s (t :: rest)) = outcome (primary s t rest) := by
  rw [outcome_unary, if_neg (by simpa using h)]

/-- One token that is an expression. -/
theorem reads_token {P : Expr → Prop} {kind : TokenKind} {lex : Bytes}
    (hkind : kind ≠ .minus ∧ kind ≠ .plus)
    (h : ∀ pos, ∃ e, P e ∧ ∀ (s : Scope) rest, s.Open search → Halts rest →
      outcome (primary s ⟨kind, lex, pos⟩ rest) = .ok (e, rest)) {ts : List Token}
        (hts : IsToken kind lex ts) :
    Denotes search P ts := by
  obtain ⟨pos, rfl⟩ := hts
  obtain ⟨e, he, hprimary⟩ := h pos
  refine fun s rest hs hrest => gives_expr hs hrest fun s hs => ?_
  rw [List.singleton_append, unary_primary hkind, hprimary s rest hs hrest]
  exact .ok he

/-- A surface name denotes the surface. -/
theorem reads_surface {x : Surface} {n : String} (hname : Surface.ofName? n = some x)
    {ts : List Token} (hts : IsToken .surface (Bytes.ofString n) ts) :
    Denotes search (fun e => ∃ pos, e = .surface x pos) ts := by
  refine reads_token (by decide) (fun pos => ⟨.surface x pos, ⟨pos, rfl⟩, fun s rest _ _ => ?_⟩) hts
  refine (outcome_primary ..).trans ?_
  simp only [surfaceOf, Token.word_ofString, hname, Option.getD_some]

/-- A colour literal denotes its colour. -/
theorem reads_color {n : String} {ts : List Token} (hts : IsToken .color (Bytes.ofString n) ts) :
    Denotes search (fun e => ∃ pos, e = .color n (colorOf n) pos) ts := by
  refine reads_token (by decide)
    (fun pos => ⟨.color n (colorOf n) pos, ⟨pos, rfl⟩, fun s rest _ _ => ?_⟩) hts
  refine (outcome_primary ..).trans ?_
  simp only [Token.word_ofString]

/-- A closure denotes its own source. -/
theorem reads_closure {source : String} {ts : List Token}
    (hts : IsToken .closure (Bytes.ofString source) ts) :
    Denotes search (fun e => ∃ pos, e = .closure source pos) ts := by
  refine reads_token (by decide)
    (fun pos => ⟨.closure source pos, ⟨pos, rfl⟩, fun s rest _ _ => ?_⟩) hts
  refine (outcome_primary ..).trans ?_
  simp only [Token.word_ofString]

/-- A truth word denotes its truth value. -/
theorem reads_bool (b : Bool) {ts : List Token}
    (hts : IsToken .keyword (Bytes.ofString (if b then "true" else "false")) ts) :
    Denotes search (fun e => ∃ pos, e = .bool b pos) ts := by
  refine reads_token (by decide) (fun pos => ⟨.bool b pos, ⟨pos, rfl⟩, fun s rest _ _ => ?_⟩) hts
  refine (outcome_primary ..).trans ?_
  cases b <;> simp [Token.word_ofString]

/-- A decimal denotes the number it is read as. -/
theorem reads_decimal {n : String} {x : Float} (hx : Number.read? n = some x) {ts : List Token}
    (hts : IsToken .number (Bytes.ofString n) ts) :
    Denotes search (fun e => ∃ raw pos, e = .number x raw pos) ts := by
  refine reads_token (by decide) (fun pos => ⟨.number x n pos, ⟨n, pos, rfl⟩, fun s rest _ _ => ?_⟩)
    hts
  rw [outcome_primary_number]
  simp only [Bytes.toString, Bytes.ofString, Utf8.decode_encode, String.ofList_toList, hx]

/-- A number behind a minus sign. -/
theorem reads_negative {n : String} {x : Float} (hx : Number.read? n = some x) {ts : List Token}
    (hts : ∃ us vs, ts = us ++ vs ∧ IsToken .minus [45] us ∧
      IsToken .number (Bytes.ofString n) vs) :
    Denotes search (fun e => ∃ raw pos, e = .number (-x) raw pos) ts := by
  obtain ⟨_, _, rfl, ⟨pos, rfl⟩, ⟨pos', rfl⟩⟩ := hts
  refine fun s rest hs hrest => gives_expr hs hrest fun s hs => ?_
  have hnumber : outcome (unary s (⟨.number, Bytes.ofString n, pos'⟩ :: rest)) =
      .ok (.number x n pos', rest) := by
    rw [unary_primary (by simp), outcome_primary_number]
    simp only [Bytes.toString, Bytes.ofString, Utf8.decode_encode, String.ofList_toList, hx]
  rw [List.append_assoc, List.singleton_append, List.singleton_append, outcome_unary,
    if_pos (by simp), hnumber]
  exact .ok ⟨"-" ++ n, pos, rfl⟩

/-! ## names -/

/-- A name that is not called. -/
theorem reads_ident {n : String} {ts : List Token}
    (hts : IsToken .identifier (Bytes.ofString n) ts) :
    Denotes search (fun e => ∃ pos, e = .ident n pos) ts := by
  refine reads_token (by decide) (fun pos => ⟨.ident n pos, ⟨pos, rfl⟩, fun s rest hs hrest => ?_⟩)
    hts
  obtain ⟨hdot, hparen⟩ := hrest.peek hs
  have hpath : dottedPath rest = ([], rest) := by
    rcases rest with _ | ⟨d, _ | ⟨t, rest⟩⟩
    · rfl
    · rfl
    · rw [dottedPath, if_neg]
      intro h
      rw [Bool.and_eq_true, decide_eq_true_eq] at h
      exact hdot h.1
  refine (outcome_primary ..).trans ?_
  dsimp only
  rw [outcome_named, hs.vars, pathAt, hpath]
  simp [hdot, hparen, Token.word_ofString]

/-- The tokens are a dotted path of the names. -/
def IsPath (names : List String) (ts : List Token) : Prop :=
  ∃ t more, ts = t :: more ∧ t.kind = .identifier ∧ names.head? = some t.word ∧
    ∀ rest : List Token, (∀ d ∈ rest.head?, d.kind ≠ .dot) →
      dottedPath (more ++ rest) = (names.tail, rest)

/-- A path begins with a letter. -/
theorem startsWith_path {names : List String} (hne : names ≠ []) (h : ∀ n ∈ names, IsName n)
    (after : Bytes) :
    startsWith isDigit (Bytes.ofString (".".intercalate names) ++ after) = false := by
  obtain ⟨n, names, rfl⟩ := List.exists_cons_of_ne_nil hne
  obtain ⟨-, b, bs, hbytes, hstart⟩ := (h n List.mem_cons_self).bytes
  obtain ⟨rest, hrest⟩ := exists_intercalate_cons "." n names
  rw [hrest, Bytes.ofString_append, hbytes]
  exact not_isDigit_of_isNameStart hstart

/-- The names of a path one after another, with points between them. -/
theorem phrase_path {names : List String} (hne : names ≠ []) (h : ∀ n ∈ names, IsName n) :
    Phrase EndsWord (".".intercalate names) (IsPath names) := by
  induction names with
  | nil => exact absurd rfl hne
  | cons n names ih =>
    obtain ⟨hn, hnames⟩ := List.forall_mem_cons.1 h
    cases names with
    | nil =>
      rw [String.intercalate_singleton]
      refine (Phrase.name hn).mono (fun _ => id) ?_
      rintro _ ⟨pos, rfl⟩
      refine ⟨_, [], rfl, rfl, by rw [Token.word_ofString]; rfl, fun rest hrest => ?_⟩
      rcases rest with _ | ⟨d, _ | ⟨t, rest⟩⟩
      · rfl
      · rfl
      · rw [List.nil_append, dottedPath, if_neg]
        · rfl
        · simp [hrest d rfl]
    | cons m names =>
      rw [String.intercalate_cons_cons]
      have hdot : Phrase (fun after => startsWith isDigit after = false) (n ++ ".") _ :=
        (Phrase.name hn).append Phrase.dot fun after _ => by
          intro b hb
          obtain rfl := Option.some.inj hb
          rfl
      refine (hdot.append (ih (by simp) hnames) fun after _ =>
        startsWith_path (by simp) hnames after).mono (fun _ => id) ?_
      rintro _ ⟨_, _, rfl, ⟨_, _, rfl, ⟨pos, rfl⟩, ⟨pos', rfl⟩⟩,
        ⟨t, more, rfl, hkind, hword, hpath⟩⟩
      refine ⟨_, _, rfl, rfl, by rw [Token.word_ofString]; rfl, fun rest hrest => ?_⟩
      have hmore : dottedPath (more ++ rest) = (names, rest) := hpath rest hrest
      obtain rfl : m = t.word := Option.some.inj hword
      change dottedPath (⟨.dot, [46], pos'⟩ :: t :: (more ++ rest)) = _
      rw [dottedPath, if_pos (by simp [hkind]), hmore]
      rfl

/-! ## calls -/

/-- The tokens are arguments that have the property. -/
def ReadsArgs (search : List String) (A : List Expr × List Keyword → Prop) (ts : List Token) :
    Prop :=
  ∀ (s : Scope) t rest, s.Open search → t.kind = .rparen →
    Gives A (t :: rest) (outcome (arguments s [] [] (ts ++ t :: rest)))

/-- A keyword argument: its name, its text and what holds of its value. -/
structure Item where
  name : String
  text : String
  means : Expr → Prop

namespace Item

/-- The argument as it is written. -/
def written (it : Item) : String := it.name ++ ": " ++ it.text

/-- The keyword argument is the one that is written. -/
structure Read (it : Item) (kw : Keyword) : Prop where
  name : kw.name = it.name
  means : it.means kw.value

/-- The keywords read from a list of items carry the names of the items, in order. -/
theorem map_name_of_read {items : List Item} {kws : List Keyword}
    (h : List.Forall₂ Read items kws) :
    kws.map (·.name) = items.map name := by
  induction h with
  | nil => rfl
  | cons hkw _ ih => rw [List.map_cons, List.map_cons, ih, hkw.name]

end Item

/-- The tokens are keyword arguments, behind those that were read before. -/
def ReadsItems (search : List String) (items : List Item) (ts : List Token) : Prop :=
  ∀ (s : Scope) acc t rest, s.Open search → (∀ kw ∈ acc, kw.name ∉ items.map Item.name) →
    t.kind = .rparen →
    Gives (fun r : List Expr × List Keyword => r.1 = [] ∧ ∃ kws, r.2 = acc ++ kws ∧
      List.Forall₂ Item.Read items kws)
      (t :: rest) (outcome (arguments s [] acc (ts ++ t :: rest)))

/-- A name, a colon and a value. -/
theorem phrase_item {it : Item} (hname : IsName it.name)
    (hvalue : Phrase EndsArgument it.text (Denotes search it.means)) :
    Phrase EndsArgument it.written fun ts => ∃ pos pos' vs,
      ts = ⟨.identifier, Bytes.ofString it.name, pos⟩ :: ⟨.colon, [58], pos'⟩ :: vs ∧
      Denotes search it.means vs := by
  have hcolon : Phrase (fun _ => True) ":" (IsToken .colon [58]) := Phrase.colon
  have hkey : Phrase (fun _ => True) (it.name ++ (":" ++ " ")) _ :=
    (Phrase.name hname).append (hcolon.append_gap Phrase.space fun _ _ => trivial)
        fun after _ b hb => by
      obtain rfl := Option.some.inj hb
      rfl
  refine (hkey.append hvalue fun _ _ => trivial).mono (fun _ => id) ?_
  rintro _ ⟨_, vs, rfl, ⟨_, _, rfl, ⟨pos, rfl⟩, ⟨pos', rfl⟩⟩, hvs⟩
  exact ⟨pos, pos', vs, rfl, hvs⟩

/-- A name, a colon and a value are read up to where no operator goes on; what is behind them decides
on the next argument. -/
theorem Item.gives_argument {it : Item} {vs more rest : List Token} {pos pos' : Pos}
    {acc : List Keyword} {P : List Expr × List Keyword → Prop} (hs : s.Open search)
    (hacc : ∀ kw ∈ acc, kw.name ≠ it.name) (hvs : Denotes search it.means vs) (hmore : Halts more)
    (hgoesOn : ∀ kw, it.Read kw → Gives P rest (furtherArguments s [] (acc ++ [kw]) more)) :
    Gives P rest (outcome (arguments s [] acc
      (⟨.identifier, Bytes.ofString it.name, pos⟩ :: ⟨.colon, [58], pos'⟩ :: vs ++ more))) := by
  have hany : (acc.any fun kw => kw.name = it.name) = false := by
    rw [List.any_eq_false]
    exact fun kw hkw heq => hacc kw hkw (of_decide_eq_true heq)
  rw [outcome_arguments]
  simp only [Scope.peek, Scope.peekSecond, List.cons_append, List.headD_cons,
    List.drop_succ_cons, List.drop_zero, Token.word_ofString, hany]
  exact (hvs s more hs hmore).bind fun e he => hgoesOn ⟨it.name, e, pos⟩ ⟨rfl, he⟩

/-- The keyword arguments of a call, each behind the one before it. -/
theorem phrase_items {items : List Item} (hnames : ∀ it ∈ items, IsName it.name)
    (hnodup : (items.map Item.name).Nodup)
    (hvalues : ∀ it ∈ items, Phrase EndsArgument it.text (Denotes search it.means)) :
    Phrase (fun after => ∃ more, after = 41 :: more) (", ".intercalate (items.map Item.written))
      (ReadsItems search items) := by
  have hlast : ∀ after : Bytes, (∃ more, after = 41 :: more) → EndsArgument after :=
    fun _ ⟨more, h⟩ => ⟨41, more, h, .inr rfl⟩
  induction items with
  | nil =>
    refine Phrase.nil.mono (fun _ => id) ?_
    rintro _ rfl s acc t rest _ _ ht
    rw [outcome_arguments]
    dsimp only
    rw [if_pos (by simpa [Scope.peek] using ht)]
    exact .ok ⟨rfl, [], (List.append_nil _).symm, .nil⟩
  | cons it items ih =>
    obtain ⟨hname, hnames⟩ := List.forall_mem_cons.1 hnames
    obtain ⟨hvalue, hvalues⟩ := List.forall_mem_cons.1 hvalues
    obtain ⟨hfresh, hnodup⟩ := List.nodup_cons.1 hnodup
    have hitem := phrase_item hname hvalue
    have hother : ∀ {acc : List Keyword}, (∀ kw ∈ acc, kw.name ∉ (it :: items).map Item.name) →
        ∀ kw ∈ acc, kw.name ≠ it.name :=
      fun hacc kw hkw heq => hacc kw hkw (heq ▸ List.mem_cons_self)
    cases items with
    | nil =>
      rw [List.map_singleton, String.intercalate_singleton]
      refine hitem.mono hlast ?_
      rintro _ ⟨pos, pos', vs, rfl, hvs⟩ s acc t rest hs hacc ht
      refine it.gives_argument hs (hother hacc) hvs (.cons (.inr (.inl ht))) fun kw hkw => ?_
      rw [furtherArguments, if_neg (by simp [ht])]
      exact .ok ⟨rfl, [kw], rfl, .cons hkw .nil⟩
    | cons it' items =>
      rw [List.map_cons, List.map_cons, String.intercalate_cons_cons]
      have hcomma : Phrase (fun _ => True) "," (IsToken .comma [44]) := Phrase.comma
      have hfirst : Phrase (fun _ => True) (it.written ++ ("," ++ " ")) _ :=
        hitem.append (hcomma.append_gap Phrase.space fun _ _ => trivial) fun after _ =>
          ⟨44, 32 :: after, rfl, .inl rfl⟩
      refine (hfirst.append (ih hnames hnodup hvalues) fun _ _ => trivial).mono (fun _ => id) ?_
      rintro _ ⟨_, more, rfl, ⟨_, _, rfl, ⟨pos, pos', vs, rfl, hvs⟩, ⟨pos'', rfl⟩⟩,
        hmore⟩ s acc t rest hs hacc ht
      rw [List.append_assoc, List.append_assoc]
      refine it.gives_argument hs (hother hacc) hvs (.cons (.inl rfl)) fun kw hkw => ?_
      rw [List.singleton_append, furtherArguments, if_pos rfl]
      refine (hmore s (acc ++ [kw]) t rest hs ?_ ht).mono ?_
      · intro kw' hkw'
        rcases List.mem_append.1 hkw' with h | h
        · exact fun hmem => hacc kw' h (List.mem_cons_of_mem _ hmem)
        · obtain rfl := List.mem_singleton.1 h
          rwa [hkw.name]
      · rintro r ⟨hargs, kws, hr, hkws⟩
        exact ⟨hargs, kw :: kws, by rw [hr]; simp, .cons hkw hkws⟩

/-- Keyword arguments alone are the arguments of a call. -/
theorem ReadsItems.readsArgs {items : List Item} {ts : List Token}
    (h : ReadsItems search items ts) :
    ReadsArgs search (fun r => r.1 = [] ∧ List.Forall₂ Item.Read items r.2) ts := by
  intro s t rest hs ht
  refine (h s [] t rest hs (by simp) ht).mono ?_
  rintro r ⟨hargs, kws, hr, hkws⟩
  exact ⟨hargs, by rwa [hr]⟩

/-- Neither a blank nor a parenthesis begins a name. -/
theorem isBlank_of_isNameStart {b : UInt8} (h : isNameStart (Char.ofUInt8 b) = true) :
    isBlank b = false ∧ b ≠ 41 := by
  have hall : ∀ b : UInt8, isNameStart (Char.ofUInt8 b) = true → isBlank b = false ∧ b ≠ 41 := by
    rintro ⟨⟨n⟩⟩
    revert n
    decide +kernel
  exact hall b h

/-- Keyword arguments are nothing or begin with a name. -/
theorem starts_items {items : List Item} (hnames : ∀ it ∈ items, IsName it.name) :
    ", ".intercalate (items.map Item.written) = "" ∨
      ∃ b bs, Bytes.ofString (", ".intercalate (items.map Item.written)) = b :: bs ∧
      isBlank b = false ∧ b ≠ 41 := by
  cases items with
  | nil => exact .inl rfl
  | cons it items =>
    obtain ⟨-, b, bs, hbytes, hstart⟩ := (hnames it List.mem_cons_self).bytes
    obtain ⟨rest, hrest⟩ := exists_intercalate_cons ", " it.written (items.map Item.written)
    rw [List.map_cons]
    rw [hrest, Item.written, String.append_assoc, String.append_assoc,
      Bytes.ofString_append, hbytes]
    exact .inr ⟨b, _, rfl, isBlank_of_isNameStart hstart⟩

/-- The tokens begin with one that is neither a name nor a parenthesis that closes. -/
def Opens (ts : List Token) : Prop :=
  ∃ t more, ts = t :: more ∧ t.kind ≠ .identifier ∧ t.kind ≠ .rparen

theorem Opens.of_isToken {kind : TokenKind} {lex : Bytes} {ts : List Token}
    (h : IsToken kind lex ts) (hkind : kind ≠ .identifier ∧ kind ≠ .rparen) : Opens ts := by
  obtain ⟨pos, rfl⟩ := h
  exact ⟨_, _, rfl, hkind⟩

theorem Opens.append {ts : List Token} (h : Opens ts) (us : List Token) : Opens (ts ++ us) := by
  obtain ⟨t, more, rfl, hkind⟩ := h
  exact ⟨t, more ++ us, rfl, hkind⟩

/-- A value without a name is read up to where no operator goes on; what is behind it decides on the
next argument. -/
theorem Opens.gives_argument {vs more rest : List Token} {means : Expr → Prop} {acc : List Expr}
    {P : List Expr × List Keyword → Prop} (hopens : Opens vs) (hs : s.Open search)
    (hvs : Denotes search means vs) (hmore : Halts more)
    (hgoesOn : ∀ e, means e → Gives P rest (furtherArguments s (acc ++ [e]) [] more)) :
    Gives P rest (outcome (arguments s acc [] (vs ++ more))) := by
  obtain ⟨t, vs, rfl, hname, hparen⟩ := hopens
  rw [outcome_arguments]
  have hpeek : s.peek (t :: vs ++ more) = t := rfl
  simp only [hpeek, decide_eq_false hname, hparen, Bool.false_and, Bool.not_false,
    List.isEmpty_nil, Bool.not_true, Bool.and_false, Bool.or_self, if_false]
  exact (hvs s more hs hmore).bind fun e he => hgoesOn e he

/-- Arguments without names, each behind the one before it. -/
theorem phrase_operands {α : Type} {text : α → String} {means : α → Expr → Prop} {xs : List α}
    (h : ∀ x ∈ xs, Phrase EndsArgument (text x) fun ts => Opens ts ∧ Denotes search (means x) ts) :
    Phrase (fun after => ∃ more, after = 41 :: more) (", ".intercalate (xs.map text))
      (ReadsArgs search fun r => r.2 = [] ∧ List.Forall₂ means xs r.1) := by
  have hlast : ∀ after : Bytes, (∃ more, after = 41 :: more) → EndsArgument after :=
    fun _ ⟨more, h⟩ => ⟨41, more, h, .inr rfl⟩
  -- what is read behind other arguments
  suffices hacc : Phrase (fun after => ∃ more, after = 41 :: more) (", ".intercalate (xs.map text))
      fun ts =>
      ∀ (s : Scope) acc t rest, s.Open search → t.kind = .rparen →
        Gives (fun r : List Expr × List Keyword => r.2 = [] ∧ ∃ es, r.1 = acc ++ es ∧
          List.Forall₂ means xs es) (t :: rest)
          (outcome (arguments s acc [] (ts ++ t :: rest))) by
    refine hacc.mono (fun _ => id) fun ts hts s t rest hs ht => (hts s [] t rest hs ht).mono ?_
    rintro r ⟨hkwargs, es, hr, hes⟩
    exact ⟨hkwargs, by rwa [hr]⟩
  induction xs with
  | nil =>
    refine Phrase.nil.mono (fun _ => id) ?_
    rintro _ rfl s acc t rest _ ht
    rw [outcome_arguments]
    dsimp only
    rw [if_pos (by simpa [Scope.peek] using ht)]
    exact .ok ⟨rfl, [], (List.append_nil _).symm, .nil⟩
  | cons x xs ih =>
    obtain ⟨hx, hxs⟩ := List.forall_mem_cons.1 h
    cases xs with
    | nil =>
      rw [List.map_singleton, String.intercalate_singleton]
      refine hx.mono hlast ?_
      rintro ts ⟨hopens, hts⟩ s acc t rest hs ht
      refine hopens.gives_argument hs hts (.cons (.inr (.inl ht))) fun e he => ?_
      rw [furtherArguments, if_neg (by simp [ht])]
      exact .ok ⟨rfl, [e], rfl, .cons he .nil⟩
    | cons y xs =>
      rw [List.map_cons, List.map_cons, String.intercalate_cons_cons]
      have hcomma : Phrase (fun _ => True) "," (IsToken .comma [44]) := Phrase.comma
      have hfirst : Phrase (fun _ => True) (text x ++ ("," ++ " ")) _ :=
        hx.append (hcomma.append_gap Phrase.space fun _ _ => trivial) fun after _ =>
          ⟨44, 32 :: after, rfl, .inl rfl⟩
      refine (hfirst.append (ih hxs) fun _ _ => trivial).mono (fun _ => id) ?_
      rintro _ ⟨_, more, rfl, ⟨ts, _, rfl, ⟨hopens, hts⟩, ⟨pos, rfl⟩⟩, hmore⟩ s acc t rest hs ht
      rw [List.append_assoc, List.append_assoc]
      refine hopens.gives_argument hs hts (.cons (.inl rfl)) fun e he => ?_
      rw [List.singleton_append, furtherArguments, if_pos rfl]
      refine (hmore s (acc ++ [e]) t rest hs ht).mono ?_
      rintro r ⟨hkwargs, es, hr, hes⟩
      exact ⟨hkwargs, e :: es, by rw [hr]; simp, .cons he hes⟩

/-- No arrow stands there behind blanks, so that a parenthesis before it closes no head of a
closure. -/
def EndsCall (after : Bytes) : Prop := ∀ b ∈ (after.dropWhile isBlank).head?, b ≠ 61

theorem EndsCall.cons {b : UInt8} (h : b ≠ 32 ∧ b ≠ 9 ∧ b ≠ 61) (after : Bytes) :
    EndsCall (b :: after) := by
  intro x hx
  rw [List.dropWhile_cons_of_neg (by simp [isBlank, h.1, h.2.1])] at hx
  obtain rfl := Option.some.inj hx
  exact h.2.2

/-- Nothing but blanks stands between the parentheses of a head. -/
theorem closureHead?_eq_none {text after : Bytes}
    (h : text = [] ∧ EndsCall after ∨ ∃ b bs, text = b :: bs ∧ isBlank b = false ∧ b ≠ 41) :
    closureHead? (text ++ 41 :: after) = none := by
  rcases h with ⟨rfl, hafter⟩ | ⟨b, bs, rfl, hblank, hparen⟩
  · have hdrop : after.drop (after.takeWhile isBlank).length = after.dropWhile isBlank :=
      (congrArg (List.drop _) List.takeWhile_append_dropWhile.symm).trans List.drop_left
    have hparen : isBlank 41 = false := rfl
    unfold closureHead?
    dsimp only
    rw [List.nil_append, List.takeWhile_cons_of_neg (by simp [hparen]), List.length_nil,
      List.drop_zero]
    split
    · rename_i rest heq
      obtain rfl := (List.cons.inj heq).2
      rw [hdrop]
      split
      · rename_i heq'
        exact absurd rfl (hafter 61 (by rw [heq']; rfl))
      · rfl
    · rfl
  · unfold closureHead?
    dsimp only
    rw [List.cons_append, List.takeWhile_cons_of_neg (by simp [hblank]), List.length_nil,
      List.drop_zero]
    split
    · rename_i heq
      exact absurd (List.cons.inj heq).1 hparen
    · rfl

/-- The tokens are a call that has the property, of an operation without a special name. -/
def IsCall (search : List String) (C : Call → Prop) (ts : List Token) : Prop :=
  ∃ t more, ts = t :: more ∧ t.kind = .identifier ∧ t.word ≠ "Math" ∧ t.word ≠ "out" ∧
    ∀ (s : Scope) rest, s.Open search →
      (s.peek (dottedPath (more ++ rest)).2).kind = .lparen ∧
        Gives C rest (outcome (call s (splitPath t.word (dottedPath (more ++ rest)).1).1
          (splitPath t.word (dottedPath (more ++ rest)).1).2 t.pos (dottedPath (more ++ rest)).2))

/-- A call of the operation with the names, where no block is; its arguments have the property. -/
structure Called (search names : List String) (A : List Expr × List Keyword → Prop) (c : Call) :
    Prop where
  name : names.getLast? = some c.name
  ns : ∃ s : Scope, s.Open search ∧ c.ns = s.namespaceRef names.dropLast
  args : A (c.args, c.kwargs)

/-- The names of an operation and its arguments between parentheses. -/
theorem phrase_call {names : List String} (hne : names ≠ []) (hnames : ∀ n ∈ names, IsName n)
    (hhead : names.head? ≠ some "Math" ∧ names.head? ≠ some "out") {args : String}
    {A : List Expr × List Keyword → Prop}
    (hargs : Phrase (fun after => ∃ more, after = 41 :: more) args (ReadsArgs search A))
    (hstart : args = "" ∨ ∃ b bs, Bytes.ofString args = b :: bs ∧ isBlank b = false ∧ b ≠ 41) :
    Phrase EndsCall (".".intercalate names ++ ("(" ++ (args ++ ")")))
      (IsCall search (Called search names A)) := by
  have hclose : Phrase EndsCall (args ++ ")") _ := hargs.append Phrase.rparen fun after _ =>
    ⟨after, rfl⟩
  have hparens : Phrase EndsCall ("(" ++ (args ++ ")")) _ :=
      Phrase.lparen.append hclose fun after hafter => by
    rw [Bytes.ofString_append, List.append_assoc]
    refine closureHead?_eq_none ?_
    rcases hstart with rfl | hstart
    · exact .inl ⟨rfl, hafter⟩
    · exact .inr hstart
  have hpath : Phrase EndsCall (".".intercalate names ++ ("(" ++ (args ++ ")"))) _ :=
    (phrase_path hne hnames).append hparens fun after _ => by
      rw [Bytes.ofString_append]
      rintro b ⟨⟩
      rfl
  refine hpath.mono (fun _ => id) ?_
  rintro _ ⟨_, _, rfl, ⟨t, more, rfl, hkind, hword, htail⟩,
    ⟨_, _, rfl, ⟨pos, rfl⟩, ⟨args, _, rfl, hread, ⟨pos', rfl⟩⟩⟩⟩
  refine ⟨t, more ++ ⟨.lparen, [40], pos⟩ :: (args ++ [⟨.rparen, [41], pos'⟩]), by simp, hkind,
    fun h => hhead.1 (h ▸ hword), fun h => hhead.2 (h ▸ hword), fun s rest hs => ?_⟩
  have hnamesEq : names = t.word :: names.tail := by
    cases names with
    | nil => exact absurd rfl hne
    | cons n names =>
      obtain rfl := Option.some.inj hword
      rfl
  have hrest := htail (⟨.lparen, [40], pos⟩ :: (args ++ ⟨.rparen, [41], pos'⟩ :: rest)) (by simp)
  rw [List.append_assoc, List.cons_append, List.append_assoc, List.singleton_append, hrest]
  refine ⟨rfl, ?_⟩
  rw [outcome_call]
  refine Gives.enter (f := fun inner =>
      outcome (arguments inner [] [] (args ++ ⟨.rparen, [41], pos'⟩ :: rest)) >>= fun args =>
    closed s _) ?_
  refine (hread _ ⟨.rparen, [41], pos'⟩ rest (hs.deeper _) rfl).bind fun r hr => ?_
  rw [closed_eq _ _ _ _ rfl]
  refine .ok ⟨?_, ⟨s, hs, ?_⟩, hr⟩
  · rw [hnamesEq]
    exact List.getLast?_eq_some_getLast (by simp)
  · conv_rhs => rw [hnamesEq]
    rfl

/-! ## chains -/

/-- What is read behind the calls of a chain. -/
def afterCalls (s : Scope) (c : Call) (more : List Call) (ts : List Token) :
    Except SyntaxError (Expr × List Token) :=
  match more with
  | [] => outcome (chainAfter s c ts)
  | _ =>
      outcome (chainTail s { calls := c :: more, pos := c.pos } ts) >>= fun ch =>
        .ok (.chain ch.1, ch.2)

/-- Behind a point the chain goes on. -/
theorem afterCalls_dot (s : Scope) (c : Call) (more : List Call) {dot : Token} (h : dot.kind = .dot)
    (ts : List Token) :
    afterCalls s c more (dot :: ts) =
      outcome (chainTail s { calls := c :: more, pos := c.pos } (dot :: ts)) >>= fun ch =>
        .ok (.chain ch.1, ch.2) := by
  cases more with
  | nil => rw [afterCalls, outcome_chainAfter, if_pos (by simpa [Scope.peek] using h)]
  | cons => rfl

/-- The tokens are calls that have the property and that a chain begins with. -/
structure Begins (search : List String) (C : List Call → Prop) (ts : List Token) : Prop where
  start : ∃ t more, ts = t :: more ∧ t.kind = .identifier
  unary : ∀ (s : Scope) rest, s.Open search →
    (∃ c more, C (c :: more) ∧ outcome (unary s (ts ++ rest)) = afterCalls s c more rest) ∨
      ∃ pos, outcome (unary s (ts ++ rest)) = fail .nestingTooDeep pos

theorem Begins.mono {C C' : List Call → Prop} {ts : List Token} (h : Begins search C ts)
    (hC : ∀ cs, C cs → C' cs) :
    Begins search C' ts :=
  ⟨h.start, fun s rest hs => (h.unary s rest hs).imp_left fun ⟨c, more, hc, hunary⟩ =>
    ⟨c, more, hC _ hc, hunary⟩⟩

/-- One call. -/
theorem begins_call {C : Call → Prop} {ts : List Token} (h : IsCall search C ts) :
    Begins search (fun cs => ∃ c, cs = [c] ∧ C c) ts := by
  obtain ⟨t, more, rfl, hkind, hmath, -, hcall⟩ := h
  refine ⟨⟨t, more, rfl, hkind⟩, fun s rest hs => ?_⟩
  obtain ⟨hparen, hgives⟩ := hcall s rest hs
  have hunary : outcome (unary s (t :: more ++ rest)) = pathAt s t (more ++ rest) := by
    rw [List.cons_append, unary_primary (by simp [hkind]), outcome_primary, hkind]
    dsimp only
    rw [outcome_named, hs.vars]
    simp [hmath]
  rw [hunary, pathAt, if_pos hparen]
  rcases hgives with ⟨c, hok, hc⟩ | ⟨pos, hfail⟩
  · rw [hok]
    exact .inl ⟨c, [], ⟨c, rfl, hc⟩, rfl⟩
  · rw [hfail]
    exact .inr ⟨pos, rfl⟩

/-- One more call behind a point. -/
theorem begins_next {Cs : List Call → Prop} {C : Call → Prop} {ts us vs : List Token}
    (h : Begins search Cs ts) (hdot : IsToken .dot [46] us) (hcall : IsCall search C vs) :
    Begins search (fun cs => ∃ cs' c, cs = cs' ++ [c] ∧ Cs cs' ∧ C c) (ts ++ (us ++ vs)) := by
  obtain ⟨pos, rfl⟩ := hdot
  obtain ⟨t, more, rfl, hkind, -, hout, hcall⟩ := hcall
  obtain ⟨t', more', hts, hkind'⟩ := h.start
  refine ⟨⟨t', more' ++ _, by rw [hts, List.cons_append], hkind'⟩, fun s rest hs => ?_⟩
  rw [List.append_assoc, List.append_assoc, List.singleton_append, List.cons_append]
  rcases h.unary s (⟨.dot, [46], pos⟩ :: t :: (more ++ rest)) hs with ⟨c, cs, hcs, hunary⟩ | hfail
  · have hfrom : ¬ t.isWord "from" = true := by simp [Token.isWord, hkind]
    rw [hunary, afterCalls_dot _ _ _ rfl, outcome_chainTail _ _ _ _ _ rfl, if_neg hfrom,
      if_neg (by simp [hkind]), if_neg (by simp [hout])]
    rcases (hcall s rest hs).2 with ⟨c', hok, hc'⟩ | ⟨pos', hfail⟩
    · rw [hok]
      exact .inl ⟨c, cs ++ [c'], ⟨c :: cs, c', rfl, hcs, hc'⟩, by cases cs <;> rfl⟩
    · rw [hfail]
      exact .inr ⟨pos', rfl⟩
  · exact .inr hfail

/-- Calls alone are an expression. -/
theorem Begins.reads {C : List Call → Prop} {ts : List Token} (h : Begins search C ts) :
    Denotes search (fun e => ∃ cs, C cs ∧ Expr.Chains cs none e) ts := by
  refine fun s rest hs hrest => gives_expr hs hrest fun s hs => ?_
  rcases h.unary s rest hs with ⟨c, more, hcs, hunary⟩ | hfail
  · rw [hunary]
    have hdot := (hrest.peek hs).1
    cases more with
    | nil =>
      rw [afterCalls, outcome_chainAfter, if_neg hdot]
      exact .ok ⟨[c], hcs, .inl ⟨c, rfl, rfl, rfl⟩⟩
    | cons c' more =>
      rw [afterCalls, chainTail_end fun t ht => (hrest t ht).2.2.2.2.1]
      · exact .ok ⟨_, hcs, .inr ⟨.inl (by simp), c.pos, rfl⟩⟩
      · simp
  · exact .inr hfail

/-- One call alone is an expression. -/
theorem IsCall.reads {C : Call → Prop} {ts : List Token} (h : IsCall search C ts) :
    Denotes search (fun e => ∃ c, e = .call c ∧ C c) ts := by
  refine (begins_call h).reads.mono ?_
  rintro e ⟨_, ⟨c, rfl, hc⟩, ⟨_, hcs, -, rfl⟩ | ⟨hlong | hout, -⟩⟩
  · obtain rfl := List.singleton_inj.1 hcs
    exact ⟨c, rfl, hc⟩
  · simp at hlong
  · exact absurd rfl hout

/-- A call by a single name has no namespace of its own. -/
theorem Called.single {n : String} {A : List Expr × List Keyword → Prop} {c : Call}
    (h : Called search [n] A c) :
    c.name = n ∧ c.ns.explicit = false := by
  obtain ⟨s, hs, hns⟩ := h.ns
  refine ⟨(Option.some.inj h.name).symm, ?_⟩
  rw [hns]
  change (s.namespaceRef []).explicit = false
  rw [hs.namespaceRef]

/-- The words of an output behind a point. -/
def IsOut (o : Surface) (ts : List Token) : Prop :=
  ∃ pos pos' pos'' n pos₃ pos₄, Surface.ofName? n = some o ∧
    ts = [⟨.dot, [46], pos⟩, ⟨.identifier, Bytes.ofString "out", pos'⟩, ⟨.lparen, [40], pos''⟩,
      ⟨.surface, Bytes.ofString n, pos₃⟩, ⟨.rparen, [41], pos₄⟩]

/-- Calls that are written to a surface are an expression. -/
theorem Begins.readsOut {C : List Call → Prop} {o : Surface} {ts us : List Token}
    (h : Begins search C ts) (hout : IsOut o us) :
    Denotes search (fun e => ∃ cs pos, C cs ∧ Expr.Chains cs (some (.surface o pos)) e)
      (ts ++ us) := by
  obtain ⟨pos, pos', pos'', n, pos₃, pos₄, hname, rfl⟩ := hout
  refine fun s rest hs hrest => gives_expr hs hrest fun s hs => ?_
  rw [List.append_assoc]
  rcases h.unary s _ hs with ⟨c, more, hcs, hunary⟩ | hfail
  · rw [hunary]
    simp only [List.cons_append, List.nil_append]
    have hsurface : Denotes search (fun e => ∃ pos, e = .surface o pos)
        [⟨.surface, Bytes.ofString n, pos₃⟩] :=
      reads_surface hname ⟨pos₃, rfl⟩
    have htarget : Gives (fun e => ∃ pos, e = .surface o pos) rest
        (outcome (outTarget s pos' (⟨.surface, Bytes.ofString n, pos₃⟩ :: ⟨.rparen, [41], pos₄⟩ ::
            rest))) := by
      rw [outcome_outTarget, if_neg (by simp [Scope.peek])]
      refine (hsurface s (⟨.rparen, [41], pos₄⟩ :: rest) hs (.cons (.inr (.inl rfl)))).bind
        fun e he => ?_
      rw [closed_eq _ _ _ _ rfl]
      exact .ok he
    have hfrom : ¬ Token.isWord ⟨.identifier, Bytes.ofString "out", pos'⟩ "from" = true := by
      simp [Token.isWord]
    rw [afterCalls_dot _ _ _ rfl, outcome_chainTail _ _ _ _ _ rfl, if_neg hfrom, if_neg (by simp),
      if_pos (by simp [Scope.peek, Token.word_ofString])]
    rw [List.drop_one, List.tail_cons]
    rcases htarget with ⟨_, hok, pos₅, rfl⟩ | ⟨pos₅, hfail⟩
    · rw [hok]
      change Gives _ _ ((if _ then _ else _) >>= _)
      rw [if_neg (hrest.peek hs).1]
      exact .ok ⟨_, pos₅, hcs, .inr ⟨.inr (by simp), c.pos, rfl⟩⟩
    · rw [hfail]
      exact .inr ⟨pos₅, rfl⟩
  · exact .inr hfail

end Parser

end EffectChain
