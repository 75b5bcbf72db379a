import EffectChain.Program.Surface

/-!
# EffectChain.Program.Tree

The parsed form of a program: a search order, statements and a render target.

Calls and chains are structures over the type of expressions, which is nested
through them.  A call carries a snapshot of the namespaces it was written under,
so its meaning does not depend on its surroundings any more.
-/

namespace EffectChain

/-- How the namespace of a call was chosen. -/
inductive NamespaceSource where
  | default
  | block
  | qualified
  | pinned
  deriving DecidableEq, Repr, Inhabited

/-- The word for the choice. -/
def NamespaceSource.text : NamespaceSource → String
  | .default => "default"
  | .block => "block"
  | .qualified => "qualified"
  | .pinned => "from"

def NamespaceSource.all : List NamespaceSource := [.default, .block, .qualified, .pinned]

/-- The namespaces a call is looked up in. -/
structure NamespaceRef where
  name : String := ""
  path : List String := []
  explicit : Bool := false
  source : NamespaceSource := .default
  resolved : Bool := false
  search : List String := []
  deriving DecidableEq, Repr, Inhabited

/-- The namespaces a bare name is tried against, in order: the one of the
surrounding block first, then the search order without it. -/
def NamespaceRef.preferred (n : NamespaceRef) : List String :=
  if n.name = "" then n.search else n.name :: n.search.filter (· ≠ n.name)

/-- A color with components between zero and one. -/
structure Rgba where
  red : Float := 0
  green : Float := 0
  blue : Float := 0
  alpha : Float := 1
  deriving Repr, Inhabited

/-- The first `n` components. -/
def Rgba.components (c : Rgba) (n : Nat) : List Float :=
  [c.red, c.green, c.blue, c.alpha].take n

/-- A `name: value` argument. -/
structure KeywordOf (ε : Type) where
  name : String
  value : ε
  pos : Pos := {}
  deriving Repr, Inhabited

/-- One operation call. -/
structure CallOf (ε : Type) where
  name : String
  args : List ε := []
  kwargs : List (KeywordOf ε) := []
  ns : NamespaceRef := {}
  pos : Pos := {}
  deriving Repr, Inhabited

/-- A sequence of calls, which may extend a variable and may end in `out()`. -/
structure ChainOf (ε : Type) where
  base : Option String := none
  calls : List (CallOf ε) := []
  out : Option ε := none
  pos : Pos := {}
  deriving Repr, Inhabited

inductive Expr where
  | number (value : Float) (raw : String) (pos : Pos)
  | string (value : Bytes) (pos : Pos)
  | bool (value : Bool) (pos : Pos)
  | color (raw : String) (rgba : Rgba) (pos : Pos)
  | ident (name : String) (pos : Pos)
  | member (path : List String) (pos : Pos)
  | closure (source : String) (pos : Pos)
  | surface (surface : Surface) (pos : Pos)
  | call (call : CallOf Expr)
  | chain (chain : ChainOf Expr)
  deriving Repr, Inhabited

abbrev Keyword := KeywordOf Expr
abbrev Call := CallOf Expr
abbrev Chain := ChainOf Expr

/-- Where the expression starts. -/
def Expr.pos : Expr → Pos
  | .number _ _ p | .string _ p | .bool _ p | .color _ _ p | .ident _ p | .member _ p
  | .closure _ p | .surface _ p => p
  | .call c => c.pos
  | .chain c => c.pos

mutual

/-- The number of nodes of an expression. -/
def Expr.size : Expr → Nat
  | .call ⟨_, args, kwargs, _, _⟩ => 1 + sizeArgs args + sizeKeywords kwargs
  | .chain ⟨_, calls, out, _⟩ => 1 + sizeCalls calls + sizeOut out
  | _ => 1

def Expr.sizeArgs : List Expr → Nat
  | [] => 0
  | e :: es => e.size + sizeArgs es

def Expr.sizeKeywords : List (KeywordOf Expr) → Nat
  | [] => 0
  | ⟨_, e, _⟩ :: ks => e.size + sizeKeywords ks

def Expr.sizeCalls : List (CallOf Expr) → Nat
  | [] => 0
  | ⟨_, args, kwargs, _, _⟩ :: cs => 1 + sizeArgs args + sizeKeywords kwargs + sizeCalls cs

def Expr.sizeOut : Option Expr → Nat
  | none => 0
  | some e => e.size

end

/-- The name of a call with the namespace written before it, if there is one. -/
def CallOf.qualifiedName {ε : Type} (c : CallOf ε) : String :=
  if c.ns.explicit && c.ns.name ≠ "" then c.ns.name ++ "." ++ c.name else c.name

/-- An arm of a conditional. -/
structure BranchOf (σ : Type) where
  cond : Expr
  body : List σ
  pos : Pos := {}
  deriving Repr, Inhabited

inductive Stmt where
  | bind (name : String) (value : Expr) (pos : Pos)
  | run (chain : Chain) (pos : Pos)
  | choose (branches : List (BranchOf Stmt)) (otherwise : Option (List Stmt)) (pos : Pos)
  | repeated (count : Option Expr) (body : List Stmt) (pos : Pos)
  | leaveLoop (pos : Pos)
  | nextRound (pos : Pos)
  | finish (pos : Pos)
  deriving Repr, Inhabited

abbrev Branch := BranchOf Stmt

/-- Where the statement starts. -/
def Stmt.pos : Stmt → Pos
  | .bind _ _ p | .run _ p | .choose _ _ p | .repeated _ _ p | .leaveLoop p | .nextRound p
  | .finish p => p

/-- A parsed source text. -/
structure Program where
  /-- The namespaces a bare name is looked up in, in order. -/
  search : List String := []
  statements : List Stmt := []
  /-- The bound names in the order of their first binding. -/
  vars : List String := []
  render : Option (Surface × Pos) := none
  deriving Repr, Inhabited

/-- Limits and switches of reading and checking a program. -/
structure Options where
  /-- How deep blocks, calls and expressions may be nested. -/
  maxDepth : Nat := 64
  /-- Whether unknown names come with a similar known one. -/
  suggest : Bool := true
  deriving DecidableEq, Repr, Inhabited

end EffectChain
