import EffectChain.Log.Record

/-!
# EffectChain.Log.Failure

Failures with identities.  A failure derived from another by adding values or a
cause is still the same kind of failure: it keeps the identity of the one it
started from as its base.
-/

namespace EffectChain.Log

/-- Something that went wrong. -/
inductive Failure where
  /-- A text. -/
  | plain (id : Nat) (message : String)
  /-- A text before another failure. -/
  | prefaced (id : Nat) (message : String) (inner : Failure)
  /-- A message with values and a cause; the base says what kind it is. -/
  | fault (id : Nat) (base : Option Nat) (message : String) (cause : Option Failure)
      (attrs : List Attr)
  deriving Repr, Inhabited

namespace Failure

def id : Failure → Nat
  | .plain i _ | .prefaced i _ _ | .fault i _ _ _ _ => i

def base? : Failure → Option Nat
  | .fault _ b _ _ _ => b
  | _ => none

/-- The whole text; an empty message leaves the text of the cause. -/
def message : Failure → String
  | .plain _ m => m
  | .prefaced _ m inner => m ++ ": " ++ inner.message
  | .fault _ _ m none _ => m
  | .fault _ _ m (some c) _ => if m = "" then c.message else m ++ ": " ++ c.message

/-- The failure and its causes, the outermost first. -/
def chain : Failure → List Failure
  | .plain i m => [.plain i m]
  | .prefaced i m inner => .prefaced i m inner :: inner.chain
  | .fault i b m none as => [.fault i b m none as]
  | .fault i b m (some c) as => .fault i b m (some c) as :: c.chain

/-- The same failure, or one with the same base. -/
def same (f g : Failure) : Bool := f.id = g.id || (f.base?.isSome && f.base? = g.base?)

/-- Whether a failure or one of its causes is `g`, or of the kind of `g`. -/
def is (f g : Failure) : Bool := f.chain.any (same · g)

/-- A fault of a kind of its own. -/
def new (id : Nat) (message : String) : Failure := .fault id (some id) message none []

/-- The fault with more values; other failures have none. -/
def withAttrs (f : Failure) (id : Nat) (as : List Attr) : Failure :=
  match f with
  | .fault _ b m c bs => .fault id b m c (bs ++ as)
  | f => f

/-- The fault with a cause. -/
def wrap (f : Failure) (id : Nat) (cause : Failure) : Failure :=
  match f with
  | .fault _ b m _ as => .fault id b m (some cause) as
  | f => f

def isFault : Failure → Bool
  | .fault .. => true
  | _ => false

/-- The outermost fault of a chain, or a fault of no kind around it. -/
def convert (id : Nat) (f : Failure) : Failure :=
  (f.chain.find? isFault).getD (.fault id none "" (some f) [])

def attrs : Failure → List Attr
  | .fault _ _ _ _ as => as
  | _ => []

/-- The values of the record of a fault. -/
def members : Failure → List Attr
  | .fault _ _ m c as =>
    Value.solid ((if m = "" then [] else [("error", .text m)]) ++
      (c.map fun c => [("cause", Value.text c.message)]).getD [] ++ as)
  | _ => []

end Failure

end EffectChain.Log
