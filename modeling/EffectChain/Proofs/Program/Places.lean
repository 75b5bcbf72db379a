import EffectChain.Program.Parser
import Mathlib.Data.List.Forall2

/-!
# EffectChain.Proofs.Program.Places

Programs up to places.

`Program.unplaced` forgets where everything in a program stands, so two programs are the same
up to places when they become the same.  Two runs of tokens are alike (`Token.Alike`) when they
have the same kinds and lexemes.
-/

namespace EffectChain

/-! ## tokens -/

/-- The same token at another place; it is not the end of the input. -/
structure Token.Alike (t t' : Token) : Prop where
  kind : t'.kind = t.kind
  lexeme : t'.lexeme = t.lexeme
  inside : t.kind ≠ .endOfInput

namespace Token.Alike

variable {t t' : Token}

theorem word (h : t.Alike t') : t'.word = t.word := congrArg Bytes.toString h.lexeme

theorem isWord (h : t.Alike t') (w : String) : t'.isWord w = t.isWord w := by
  rw [Token.isWord, h.kind, h.word, Token.isWord]

/-- Tokens are like themselves when none of them is the end of the input. -/
theorem refl_of_forall {ts : List Token} (h : ∀ t ∈ ts, t.kind ≠ .endOfInput) :
    ts.Forall₂ Token.Alike ts :=
  List.forall₂_same.2 fun t ht => ⟨rfl, rfl, h t ht⟩

end Token.Alike

/-- The token the input ends with. -/
def Token.IsLast (t : Token) : Prop := t.kind = .endOfInput ∧ t.lexeme = []

/-! ## trees -/

mutual

/-- The expression with all places forgotten. -/
def Expr.unplaced : Expr → Expr
  | .number value raw _ => .number value raw {}
  | .string value _ => .string value {}
  | .bool value _ => .bool value {}
  | .color raw rgba _ => .color raw rgba {}
  | .ident name _ => .ident name {}
  | .member path _ => .member path {}
  | .closure source _ => .closure source {}
  | .surface s _ => .surface s {}
  | .call ⟨name, args, kwargs, ns, _⟩ =>
      .call ⟨name, unplacedArgs args, unplacedKeywords kwargs, ns, {}⟩
  | .chain ⟨base, calls, out, _⟩ => .chain ⟨base, unplacedCalls calls, unplacedOut out, {}⟩

def Expr.unplacedArgs : List Expr → List Expr
  | [] => []
  | e :: es => e.unplaced :: unplacedArgs es

def Expr.unplacedKeywords : List (KeywordOf Expr) → List (KeywordOf Expr)
  | [] => []
  | ⟨name, e, _⟩ :: ks => ⟨name, e.unplaced, {}⟩ :: unplacedKeywords ks

def Expr.unplacedCalls : List (CallOf Expr) → List (CallOf Expr)
  | [] => []
  | ⟨name, args, kwargs, ns, _⟩ :: cs =>
    ⟨name, unplacedArgs args, unplacedKeywords kwargs, ns, {}⟩ :: unplacedCalls cs

def Expr.unplacedOut : Option Expr → Option Expr
  | none => none
  | some e => some e.unplaced

end

def KeywordOf.unplaced (k : Keyword) : Keyword := ⟨k.name, k.value.unplaced, {}⟩

def CallOf.unplaced (c : Call) : Call :=
  ⟨c.name, c.args.map Expr.unplaced, c.kwargs.map KeywordOf.unplaced, c.ns, {}⟩

def ChainOf.unplaced (ch : Chain) : Chain :=
  ⟨ch.base, ch.calls.map CallOf.unplaced, ch.out.map Expr.unplaced, {}⟩

namespace Expr

theorem unplacedArgs_eq (es : List Expr) : unplacedArgs es = es.map unplaced := by
  induction es with
  | nil => rfl
  | cons e es ih => rw [unplacedArgs, ih, List.map_cons]

theorem unplacedKeywords_eq (ks : List Keyword) :
    unplacedKeywords ks = ks.map KeywordOf.unplaced := by
  induction ks with
  | nil => rfl
  | cons k ks ih => rw [unplacedKeywords, ih, List.map_cons, KeywordOf.unplaced]

/-- Calls forget their places one by one. -/
theorem unplacedCalls_eq (cs : List Call) : unplacedCalls cs = cs.map CallOf.unplaced := by
  induction cs with
  | nil => rfl
  | cons c cs ih =>
    rw [unplacedCalls, ih, unplacedArgs_eq, unplacedKeywords_eq, List.map_cons, CallOf.unplaced]

theorem unplacedOut_eq (out : Option Expr) : unplacedOut out = out.map unplaced := by
  cases out <;> rfl

theorem unplaced_call (c : Call) : (Expr.call c).unplaced = .call c.unplaced := by
  rw [unplaced, unplacedArgs_eq, unplacedKeywords_eq, CallOf.unplaced]

theorem unplaced_chain (ch : Chain) : (Expr.chain ch).unplaced = .chain ch.unplaced := by
  rw [unplaced, unplacedCalls_eq, unplacedOut_eq, ChainOf.unplaced]

end Expr

mutual

/-- The statement with all places forgotten. -/
def Stmt.unplaced : Stmt → Stmt
  | .bind name value _ => .bind name value.unplaced {}
  | .run chain _ => .run chain.unplaced {}
  | .choose branches otherwise _ => .choose (unplacedArms branches) (unplacedOtherwise otherwise) {}
  | .repeated count body _ => .repeated (count.map Expr.unplaced) (unplacedAll body) {}
  | .leaveLoop _ => .leaveLoop {}
  | .nextRound _ => .nextRound {}
  | .finish _ => .finish {}

def Stmt.unplacedAll : List Stmt → List Stmt
  | [] => []
  | st :: sts => st.unplaced :: unplacedAll sts

def Stmt.unplacedArms : List (BranchOf Stmt) → List (BranchOf Stmt)
  | [] => []
  | ⟨cond, body, _⟩ :: arms => ⟨cond.unplaced, unplacedAll body, {}⟩ :: unplacedArms arms

def Stmt.unplacedOtherwise : Option (List Stmt) → Option (List Stmt)
  | none => none
  | some sts => some (unplacedAll sts)

end

def BranchOf.unplaced (arm : Branch) : Branch := ⟨arm.cond.unplaced, arm.body.map Stmt.unplaced, {}⟩

namespace Stmt

theorem unplacedAll_eq (sts : List Stmt) : unplacedAll sts = sts.map unplaced := by
  induction sts with
  | nil => rfl
  | cons st sts ih => rw [unplacedAll, ih, List.map_cons]

theorem unplaced_choose (arms : List Branch) (otherwise : Option (List Stmt)) (pos : Pos) :
    (Stmt.choose arms otherwise pos).unplaced =
      .choose (arms.map BranchOf.unplaced) (otherwise.map (·.map unplaced)) {} := by
  have harms : unplacedArms arms = arms.map BranchOf.unplaced := by
    induction arms with
    | nil => rfl
    | cons arm arms ih => rw [unplacedArms, ih, unplacedAll_eq, List.map_cons, BranchOf.unplaced]
  have hotherwise : unplacedOtherwise otherwise = otherwise.map (·.map unplaced) := by
    cases otherwise with
    | none => rfl
    | some sts => rw [unplacedOtherwise, unplacedAll_eq, Option.map_some]
  rw [unplaced, harms, hotherwise]

theorem unplaced_repeated (count : Option Expr) (body : List Stmt) (pos : Pos) :
    (Stmt.repeated count body pos).unplaced = .repeated (count.map Expr.unplaced)
      (body.map unplaced) {} := by
  rw [unplaced, unplacedAll_eq]

end Stmt

/-- The program with all places forgotten. -/
def Program.unplaced (p : Program) : Program :=
  { p with statements := p.statements.map Stmt.unplaced, render := p.render.map fun x => (x.1, {}) }

end EffectChain
