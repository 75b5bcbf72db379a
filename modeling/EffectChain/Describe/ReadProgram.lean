import EffectChain.Describe.Fields
import EffectChain.Program.Tree

/-!
# EffectChain.Describe.ReadProgram

Programs read back from their descriptions.  Fields that follow from others need
not be there.  The depth of the walk is bounded by the weight of the description.
-/

namespace EffectChain

def Pos.ofDescription (d : Document) : Pos :=
  let at' := fun i => ((d.asList.getD i .null).asInt).toNat
  ⟨at' 0, at' 1⟩

def Surface.ofDescription (d : Document) : Surface :=
  ⟨(SurfaceKind.ofText? (d.textAt "kind")).getD .output, d.natAt "index"⟩

def NamespaceRef.ofDescription (d : Document) : NamespaceRef :=
  { name := d.textAt "name"
    path := d.textsAt "path"
    explicit := d.boolAt "explicit"
    source := (NamespaceSource.all.find? (·.text = d.textAt "source")).getD .default
    resolved := d.boolAt "resolved"
    search := d.textsAt "search" }

mutual

def Expr.ofDescription : (fuel : Nat) → Document → Expr
  | 0, _ => .ident "" {}
  | fuel + 1, d =>
    let pos := Pos.ofDescription (d.field "pos")
    match d.textAt "t" with
    | "number" => .number (d.floatAt "value") (d.textAt "raw") pos
    | "string" => .string (Bytes.ofString (d.textAt "value")) pos
    | "bool" => .bool (d.boolAt "value") pos
    | "color" =>
      let part := fun i => ((d.listAt "rgba").getD i .null).asFloat
      .color (d.textAt "raw") ⟨part 0, part 1, part 2, part 3⟩ pos
    | "member" => .member (d.textsAt "path") pos
    | "func" => .closure (d.textAt "source") pos
    | "surface" => .surface (Surface.ofDescription d) pos
    | "call" => .call (callOfDescription fuel d)
    | "chain" => .chain (chainOfDescription fuel d)
    | _ => .ident (d.textAt "name") pos

def callOfDescription : (fuel : Nat) → Document → Call
  | 0, _ => { name := "" }
  | fuel + 1, d =>
    { name := d.textAt "name"
      args := (d.listAt "args").map fun x => Expr.ofDescription fuel x
      kwargs := (d.listAt "kwargs").map fun k =>
        let part := fun i => k.asList.getD i .null
        ⟨(part 0).asText, Expr.ofDescription fuel (part 1), Pos.ofDescription (part 2)⟩
      ns := NamespaceRef.ofDescription (d.field "ns")
      pos := Pos.ofDescription (d.field "pos") }

def chainOfDescription : (fuel : Nat) → Document → Chain
  | 0, _ => {}
  | fuel + 1, d =>
    { base := if d.textAt "base" = "" then none else some (d.textAt "base")
      calls := (d.listAt "calls").map fun x => callOfDescription fuel x
      out := if d.boolAt "hasOut" then some (Expr.ofDescription fuel (d.field "out")) else none
      pos := Pos.ofDescription (d.field "pos") }

end

/-- An expression, as deep as its description. -/
def exprOfDescription (d : Document) : Expr := Expr.ofDescription (2 * d.weight) d

def Stmt.ofDescription : (fuel : Nat) → Document → Stmt
  | 0, _ => .finish {}
  | fuel + 1, d =>
    let pos := Pos.ofDescription (d.field "pos")
    let body := fun (d : Document) k => (d.listAt k).map fun x => Stmt.ofDescription fuel x
    match d.textAt "t" with
    | "let" => .bind (d.textAt "name") (exprOfDescription (d.field "value")) pos
    | "chain" => .run (chainOfDescription (2 * d.weight) (d.field "chain")) pos
    | "if" =>
      .choose ((d.listAt "branches").map fun b =>
          ⟨exprOfDescription (b.field "cond"), body b "body", Pos.ofDescription (b.field "pos")⟩)
        (if d.boolAt "hasElse" then some (body d "else") else none) pos
    | "loop" => .repeated (d.optionAt "count" exprOfDescription) (body d "body") pos
    | "break" => .leaveLoop pos
    | "continue" => .nextRound pos
    | _ => .finish pos

def Program.ofDescription (d : Document) : Program :=
  { search := d.textsAt "search"
    statements := (d.listAt "statements").map (Stmt.ofDescription d.weight)
    vars := d.textsAt "vars"
    render := d.optionAt "render" fun r =>
      (Surface.ofDescription r, Pos.ofDescription (r.field "pos")) }

end EffectChain
