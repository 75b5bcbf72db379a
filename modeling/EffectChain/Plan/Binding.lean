import EffectChain.Data.Table
import EffectChain.Plan.Diagnostic

/-!
# EffectChain.Plan.Binding

Variables: what names stand for, and what is left of a chain when every variable
in it is replaced.  A variable for a name renames the call, one for a call adds
its arguments, and one for a chain stands for all its calls.
-/

namespace EffectChain

/-- What names stand for. -/
abbrev Bindings := Table Expr

namespace Bindings

/-- How many variables are followed at most. -/
def maxAliases : Nat := 32

/-- Follows at most `n` variables. -/
def follow (vars : Bindings) : Nat → Expr → Expr
  | n + 1, .ident name pos =>
    match vars.get? name with
    | some e => follow vars n e
    | none => .ident name pos
  | _, e => e

/-- What an expression stands for. -/
def deref (vars : Bindings) (e : Expr) : Expr := vars.follow maxAliases e

/-- A keyword argument put over the one of its name, or last. -/
def putKeyword (k : Keyword) : List Keyword → List Keyword
  | [] => [k]
  | k' :: ks => if k'.name = k.name then k :: ks else k' :: putKeyword k ks

/-- A call with further arguments: positional ones after its own, keyword ones
over its own. -/
def mergeCall (base use : Call) : Call :=
  { base with
    pos := use.pos
    args := base.args ++ use.args
    kwargs := use.kwargs.foldl (fun ks k => putKeyword k ks) base.kwargs }

/-- The calls a call stands for. -/
def expandCall (vars : Bindings) (c : Call) : List Call × List Diagnostic :=
  if c.ns.explicit then ([c], [])
  else match vars.get? c.name with
    | none => ([c], [])
    | some (.ident name _) => ([{ c with name }], [])
    | some (.member path _) =>
      let space := path.dropLast
      ([{ c with
          name := path.getLastD ""
          ns := { name := ".".intercalate space, path := space, explicit := true,
                  source := .qualified, resolved := true, search := c.ns.search } }], [])
    | some (.call base) => ([mergeCall base c], [])
    | some (.chain ch) =>
      (ch.calls,
        if c.args.isEmpty && c.kwargs.isEmpty then []
        else [{ problem := .chainTakesNoArguments c.name, pos := c.pos }])
    | some _ => ([], [{ problem := .notCallable c.name, pos := c.pos }])

/-- The calls of the variable a chain starts with. -/
def expandBase (vars : Bindings) (ch : Chain) : List Call × List Diagnostic :=
  match ch.base with
  | none => ([], [])
  | some base =>
    match vars.get? base with
    | some (.call c) => ([c], [])
    | some (.chain c) => (c.calls, [])
    | some (.ident name _) => ([{ name, pos := ch.pos }], [])
    | _ => ([], [{ problem := .cannotStart base, pos := ch.pos }])

/-- The calls a chain stands for. -/
def expandChain (vars : Bindings) (ch : Chain) : List Call × List Diagnostic :=
  ch.calls.foldl (fun (calls, ds) c =>
    let (more, ds') := vars.expandCall c
    (calls ++ more, ds ++ ds')) (vars.expandBase ch)

/-- Binds a name.  Variables in calls and chains are replaced when they are bound. -/
def bind (vars : Bindings) (name : String) (value : Expr) : Bindings × List Diagnostic :=
  match value with
  | .ident other _ => (vars.insert name ((vars.get? other).getD value), [])
  | .call c =>
    match vars.expandCall c with
    | ([c'], ds) => (vars.insert name (.call c'), ds)
    | (calls, ds) => (vars.insert name (.chain { calls, pos := c.pos }), ds)
  | .chain ch =>
    let (calls, ds) := vars.expandChain ch
    (vars.insert name (.chain { calls, pos := ch.pos }), ds)
  | value => (vars.insert name value, [])

end Bindings

end EffectChain
