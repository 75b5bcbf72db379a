import Mathlib
import EffectChain.Plan.Lower
import EffectChain.Plan.Printer

/-!
# EffectChain.Proofs.Plan.Overriding

What overrides change in the text of a plan.

The text of a plan is laid out first (`Printer.layout`): lines that say the blocks, the names
that are searched and the surface that is shown, and lines with a chain; the calls of a chain;
and what stands for each argument of a call, which may be a chain again.  Two layouts are
compared place by place (`Layout.Line.Alike`), and they may differ in an overridden argument
only.

* `Printer.text_layout` — the text of a plan is the text of its layout;
* `overrides_local` — the text with overrides and the one without them are laid out alike.
-/

namespace EffectChain

namespace Overrides

/-- A step has a value given from outside. -/
def Touches (o : Overrides) (step : Nat) : Prop := ∃ param, (o.get? step param).isSome

end Overrides

/-! ## laid out text -/

namespace Layout

/-- What stands for an argument: a text of its own, or a chain. -/
inductive Filling (α : Type) where
  | plain (text : String)
  | chain (c : α)

/-- A call of an operation, with all the arguments it may have in their order; nothing stands
for an argument that is left out. -/
@[ext] structure Call (α : Type) where
  step : Nat
  name : String
  args : List (String × Option (Filling α))

/-- Calls one after the other, and the surface the last one writes to. -/
@[ext] structure Chain (α : Type) where
  calls : List (Call α)
  out : Option Surface

/-- A chain whose arguments are chains again, and so on to a depth. -/
def Nested : Nat → Type
  | 0 => Unit
  | depth + 1 => Chain (Nested depth)

/-- A line, which is fixed or has a chain behind its indentation. -/
inductive Line (α : Type) where
  | fixed (text : String)
  | chain (indent : Nat) (c : α)

section Text

variable {α : Type}

def Filling.text (write : α → String) : Filling α → String
  | .plain text => text
  | .chain c => write c

def Call.text (write : α → String) (c : Call α) : String :=
  c.name ++ "(" ++
    ", ".intercalate (c.args.filterMap fun a => a.2.map fun f => a.1 ++ ": " ++ f.text write) ++ ")"

def Chain.text (write : α → String) (c : Chain α) : String :=
  ".".intercalate (c.calls.map (Call.text write)) ++
    match c.out with
    | some o => ".out(" ++ o.name ++ ")"
    | none => ""

def Nested.text : (depth : Nat) → Nested depth → String
  | 0, _ => ""
  | depth + 1, c => Chain.text (Nested.text depth) c

def Line.text (write : α → String) : Line α → String
  | .fixed text => text
  | .chain indent c => Printer.indent indent ++ write c ++ "\n"

/-- The lines one after the other. -/
def text {depth : Nat} (lines : List (Line (Nested depth))) : String :=
  String.join (lines.map (Line.text (Nested.text depth)))

end Text

/-! ## places that agree -/

section Alike

variable {α : Type} (o : Overrides) (T : α → Prop) (R : α → α → Prop)

/-- An argument of a step with its name.  If it is not overridden, the same stands for it; or a
chain of `T`, which has an overridden step in it, and then the two chains are related. -/
inductive Call.ArgAlike (step : Nat) :
    String × Option (Filling α) → String × Option (Filling α) → Prop
  | overridden {name : String} (f f' : Option (Filling α)) (h : (o.get? step name).isSome) :
      ArgAlike step (name, f) (name, f')
  | same (a : String × Option (Filling α)) : ArgAlike step a a
  | nested (name : String) {c c' : α} (ht : T c) (h : R c c') :
      ArgAlike step (name, some (.chain c)) (name, some (.chain c'))

/-- The same step of the same operation, with arguments that agree. -/
structure Call.Alike (c c' : Call α) : Prop where
  step : c'.step = c.step
  name : c'.name = c.name
  args : List.Forall₂ (Call.ArgAlike o T R c.step) c.args c'.args

/-- The same calls in the same order, with the same output. -/
structure Chain.Alike (c c' : Chain α) : Prop where
  calls : List.Forall₂ (Call.Alike o T R) c.calls c'.calls
  out : c'.out = c.out

/-- There is an overridden step among the calls, or in a chain that is an argument of one. -/
def Chain.Touched (c : Chain α) : Prop :=
  ∃ call ∈ c.calls, o.Touches call.step ∨ ∃ name d, (name, some (.chain d)) ∈ call.args ∧ T d

/-- There is an overridden step at any depth. -/
def Nested.Touched : (depth : Nat) → Nested depth → Prop
  | 0 => fun _ => False
  | depth + 1 => Chain.Touched o (Nested.Touched depth)

/-- The chains agree at every depth. -/
def Nested.Alike : (depth : Nat) → Nested depth → Nested depth → Prop
  | 0 => fun _ _ => True
  | depth + 1 => Chain.Alike o (Nested.Touched o depth) (Nested.Alike depth)

/-- The same line; or a line of a chain with an overridden step in it, with the same indentation
and a chain that agrees. -/
inductive Line.Alike : Line α → Line α → Prop
  | same (l : Line α) : Alike l l
  | touched (indent : Nat) {c c' : α} (ht : T c) (h : R c c') : Alike (.chain indent c)
      (.chain indent c')

/-- Lines that agree, in the same order. -/
def Alike {depth : Nat} (lines lines' : List (Line (Nested depth))) : Prop :=
  List.Forall₂ (Line.Alike (Nested.Touched o depth) (Nested.Alike o depth)) lines lines'

variable {o T R}

/-- Lists related one by one are equal when related entries are. -/
theorem eq_of_forall₂ {β : Type} {S : β → β → Prop} {xs ys : List β} (h : List.Forall₂ S xs ys)
    (heq : ∀ x ∈ xs, ∀ y, S x y → y = x) : ys = xs := by
  induction h with
  | nil => rfl
  | cons hxy _ ih =>
    rw [heq _ List.mem_cons_self _ hxy, ih fun x hx => heq x (List.mem_cons_of_mem _ hx)]

/-- A chain without overridden steps agrees with itself only. -/
theorem Chain.Alike.eq_of_untouched {c c' : Chain α} (h : Chain.Alike o T R c c')
    (hfree : ¬ c.Touched o T) : c' = c := by
  have hargs : ∀ call ∈ c.calls, ∀ a ∈ call.args, ∀ a', Call.ArgAlike o T R call.step a a' →
      a' = a := by
    intro call hcall a ha a' halike
    cases halike with
    | overridden f f' h => exact absurd ⟨call, hcall, .inl ⟨_, h⟩⟩ hfree
    | same => rfl
    | nested name ht _ => exact absurd ⟨call, hcall, .inr ⟨name, _, ha, ht⟩⟩ hfree
  have hcalls : c'.calls = c.calls := eq_of_forall₂ h.calls fun call hcall call' halike =>
    Call.ext halike.step halike.name (eq_of_forall₂ halike.args (hargs call hcall))
  exact Chain.ext hcalls h.out

theorem Nested.Alike.eq_of_untouched : ∀ {depth : Nat} {c c' : Nested depth},
    Nested.Alike o depth c c' → ¬ Nested.Touched o depth c → c' = c
  | 0, _, _, _, _ => rfl
  | _ + 1, _, _, h, hfree => Chain.Alike.eq_of_untouched h hfree

/-- An alike nested chain is the same or is touched. -/
theorem Nested.Alike.same_or_touched {depth : Nat} {c c' : Nested depth}
    (h : Nested.Alike o depth c c') :
    c' = c ∨ Nested.Touched o depth c ∧ Nested.Alike o depth c c' := by
  by_cases ht : Nested.Touched o depth c
  · exact .inr ⟨ht, h⟩
  · exact .inl (h.eq_of_untouched ht)

end Alike

end Layout

/-! ## the layout of a plan -/

namespace Printer

open Layout

variable {α : Type}

/-- What stands for an argument that is not overridden. -/
def fillingOf (u : Printer) (chain : Nat → α) (a : ArgSpec) : Value → Filling α
  | .ref s => if s.kind = .temp then .chain (chain s.index) else .plain s.name
  | v => .plain (u.valueText (fun _ => "") a v)

/-- What stands for an argument, if it is to be written. -/
def filling? (u : Printer) (chain : Nat → α) (st : Step) (a : ArgSpec) : Option (Filling α) :=
  match u.overrides.get? st.temp a.name with
  | some d => some (.plain (u.overrideText (fun _ => "") a d))
  | none =>
      if st.explicit.contains a.name then (st.args.get? a.name).map (u.fillingOf chain a) else none

def laidCall (u : Printer) (chain : Nat → α) (st : Step) : Layout.Call α where
  step := st.temp
  name := u.opName st.op
  args := (u.argSpecs st).map fun a => (a.name, u.filling? chain st a)

/-- The chain that ends at a step, with what its arguments are. -/
def laidChain (u : Printer) : (depth : Nat) → (temp : Nat) → Nested depth
  | 0, _ => ()
  | depth + 1, temp =>
    let steps := backwards u.plan (u.plan.steps.length + 1) temp
    { calls := steps.reverse.map (u.laidCall (u.laidChain depth)), out := steps.head?.bind (·.out) }

/-- The lines of the steps that end chains, in the blocks around them. -/
def laidBody (u : Printer) (chain : Nat → α) (open_ : List String) : List Step → List (Line α)
  | [] => (closers open_.length).map .fixed
  | st :: rest =>
    let hs := headers st
    let line := .chain hs.length (chain st.temp)
    if hs = open_ then line :: u.laidBody chain open_ rest
    else (closers open_.length ++ openers hs).map .fixed ++ line :: u.laidBody chain hs rest

/-- How deep chains may be nested. -/
abbrev depth (u : Printer) : Nat := u.plan.steps.length + 1

/-- The lines of a plan. -/
def layout (u : Printer) : List (Line (Nested u.depth)) :=
  .fixed ("search " ++ ", ".intercalate u.plan.search ++ "\n") ::
    (u.laidBody (u.laidChain u.depth) []
      (u.plan.steps.filter fun st => !(consumed u.plan).contains st.temp) ++
    (u.plan.render.toList.map fun s => Line.fixed ("render(" ++ s.name ++ ")\n")))

/-! ### its text -/

section Text

variable {u : Printer}

/-- The text of a value read from a document does not depend on the chains. -/
theorem valueText_ofDocument {d : Document} {v : Value} (h : Value.ofDocument? d = some v)
    (chain chain' : Nat → String) (a : ArgSpec) :
    u.valueText chain a v = u.valueText chain' a v := by
  cases v with
  | ref s => cases d <;> simp [Value.ofDocument?] at h
  | _ => rfl

/-- The text of an override does not depend on the chains. -/
theorem overrideText_eq (chain chain' : Nat → String) (a : ArgSpec) (d : Document) :
    u.overrideText chain a d = u.overrideText chain' a d := by
  have hplain : ((Value.ofDocument? d).map (u.valueText chain a)) = (Value.ofDocument? d).map
      (u.valueText chain' a) :=
    Option.map_congr fun v hv => valueText_ofDocument hv chain chain' a
  unfold overrideText
  rw [hplain]

/-- The filling of an argument has the text of its value. -/
theorem text_fillingOf (chain : Nat → α) (write : α → String) (a : ArgSpec) (v : Value) :
    (u.fillingOf chain a v).text write = u.valueText (write ∘ chain) a v := by
  cases v with
  | ref s =>
    change Filling.text write (if s.kind = .temp then .chain (chain s.index) else .plain s.name) =
      if s.kind = .temp then write (chain s.index) else s.name
    split <;> rfl
  | _ => rfl

/-- The filling of an argument has the text that is printed for it. -/
theorem text_filling? (chain : Nat → α) (write : α → String) (st : Step) (a : ArgSpec) :
    ((u.filling? chain st a).map fun f => a.name ++ ": " ++ f.text write) =
      u.argText? (write ∘ chain) st a := by
  unfold filling? argText?
  cases u.overrides.get? st.temp a.name with
  | some d => exact congrArg (fun s => some (a.name ++ ": " ++ s)) (overrideText_eq ..)
  | none =>
    dsimp only
    split
    · simp only [Option.map_map, Function.comp_def, text_fillingOf]
    · rfl

theorem text_laidCall (chain : Nat → α) (write : α → String) (st : Step) :
    (u.laidCall chain st).text write = u.callText (write ∘ chain) st := by
  simp only [Layout.Call.text, laidCall, callText, List.filterMap_map, Function.comp_def,
    text_filling?]

/-- A chain that is laid out has the text that is printed for it. -/
theorem text_laidChain (depth : Nat) :
    (Nested.text depth ∘ u.laidChain depth) = u.chainText depth := by
  induction depth with
  | zero => rfl
  | succ depth ih =>
    funext temp
    have hcall : Layout.Call.text (Nested.text depth) ∘ u.laidCall (u.laidChain depth) =
        u.callText (u.chainText depth) :=
          funext fun st => by rw [Function.comp_apply, text_laidCall, ih]
    have hcalls : ∀ steps : List Step,
        (steps.map (u.laidCall (u.laidChain depth))).map (Layout.Call.text (Nested.text depth)) =
          steps.map (u.callText (u.chainText depth)) := fun steps => by rw [List.map_map, hcall]
    exact congrArg (".".intercalate · ++ _) (hcalls _)

/-- A body that is laid out has the lines that are printed for it. -/
theorem text_laidBody (chain : Nat → α) (write : α → String)
    (hchain : write ∘ chain = u.chainText u.depth) (open_ : List String) (steps : List Step) :
    (u.laidBody chain open_ steps).map (Line.text write) = u.body open_ steps := by
  have hfixed : ∀ lines : List String, (lines.map Line.fixed).map (Line.text write) = lines :=
      fun lines => by
    rw [List.map_map]
    exact List.map_id lines
  have hline : ∀ (st : Step) (n : Nat), Line.text write (.chain n (chain st.temp)) =
      indent n ++ u.chainText u.depth st.temp ++ "\n" := fun st n => by
    rw [← hchain]
    rfl
  induction steps generalizing open_ with
  | nil => exact hfixed _
  | cons st rest ih =>
    unfold laidBody body
    dsimp only
    split
    · rw [List.map_cons, hline, ih]
    · rw [List.map_append, hfixed, List.map_cons, hline, ih]

/-- The text of a plan is the text of its layout. -/
theorem text_layout : Layout.text u.layout = u.text := by
  rw [layout, Layout.text, List.map_cons, List.map_append,
    text_laidBody _ _ (text_laidChain u.depth)]
  unfold text
  cases u.plan.render with
  | none => simp [Line.text, String.join_cons]
  | some s => simp [Line.text, String.join_cons, String.append_assoc]

end Text

/-! ### two layouts -/

section Alike

/-- The same without overrides. -/
def bare (u : Printer) : Printer := { u with overrides := {} }

variable {u : Printer} {T : α → Prop} {R : α → α → Prop} {chain chain' : Nat → α}

/-- Fillings are alike when the chains are. -/
theorem alike_fillingOf
    (hchain : ∀ temp, chain' temp = chain temp ∨ T (chain temp) ∧ R (chain temp) (chain' temp))
    (step : Nat) (name : String) (a : ArgSpec) (v : Value) :
    Call.ArgAlike u.overrides T R step (name, some (u.bare.fillingOf chain a v))
      (name, some (u.fillingOf chain' a v)) := by
  cases v with
  | ref s =>
    have href : ∀ (w : Printer) (c : Nat → α), w.fillingOf c a (.ref s) =
        if s.kind = .temp then .chain (c s.index) else .plain s.name := fun _ _ => rfl
    rw [href, href]
    split
    · obtain heq | ⟨ht, hr⟩ := hchain s.index
      · rw [heq]
        exact .same _
      · exact .nested _ ht hr
    · exact .same _
  | _ => exact .same _

/-- Arguments are filled alike when the chains are. -/
theorem alike_filling?
    (hchain : ∀ temp, chain' temp = chain temp ∨ T (chain temp) ∧ R (chain temp) (chain' temp))
    (st : Step) (a : ArgSpec) :
    Call.ArgAlike u.overrides T R st.temp (a.name, u.bare.filling? chain st a)
      (a.name, u.filling? chain' st a) := by
  cases hget : u.overrides.get? st.temp a.name with
  | some d => exact .overridden _ _ (by rw [hget]; rfl)
  | none =>
    have hbare : u.bare.filling? chain st a =
        if st.explicit.contains a.name then (st.args.get? a.name).map (u.bare.fillingOf chain a)
          else none := rfl
    rw [hbare, filling?, hget]
    dsimp only
    split
    · cases st.args.get? a.name with
      | none => exact .same _
      | some v => exact alike_fillingOf hchain _ _ a v
    · exact .same _

/-- Calls are laid out alike when the chains are. -/
theorem alike_laidCall
    (hchain : ∀ temp, chain' temp = chain temp ∨ T (chain temp) ∧ R (chain temp) (chain' temp))
    (st : Step) : Call.Alike u.overrides T R (u.bare.laidCall chain st) (u.laidCall chain' st) where
  step := rfl
  name := rfl
  args := by
    rw [laidCall, laidCall, List.forall₂_map_left_iff, List.forall₂_map_right_iff]
    exact List.forall₂_same.2 fun a _ => alike_filling? hchain st a

/-- By induction on the depth: the chains in the arguments are the same or have an overridden step.
-/
theorem alike_laidChain (u : Printer) (depth temp : Nat) :
    Nested.Alike u.overrides depth (u.bare.laidChain depth temp) (u.laidChain depth temp) := by
  induction depth generalizing temp with
  | zero => trivial
  | succ depth ih =>
    refine ⟨?_, rfl⟩
    change List.Forall₂ _ (List.map _ _) (List.map _ _)
    rw [List.forall₂_map_left_iff, List.forall₂_map_right_iff]
    exact List.forall₂_same.2 fun st _ => alike_laidCall (fun t => (ih t).same_or_touched) st

/-- Bodies are laid out alike when the chains are. -/
theorem alike_laidBody
    (hchain : ∀ temp, chain' temp = chain temp ∨ T (chain temp) ∧ R (chain temp) (chain' temp))
    (open_ : List String) (steps : List Step) :
    List.Forall₂ (Line.Alike T R) (u.bare.laidBody chain open_ steps)
      (u.laidBody chain' open_ steps) := by
  have hline : ∀ n temp, Line.Alike T R (.chain n (chain temp)) (.chain n (chain' temp)) :=
      fun n temp => by
    obtain heq | ⟨ht, hr⟩ := hchain temp
    · rw [heq]
      exact .same _
    · exact .touched n ht hr
  have hsame : ∀ lines : List (Line α), List.Forall₂ (Line.Alike T R) lines lines := fun lines =>
    List.forall₂_same.2 fun l _ => .same l
  induction steps generalizing open_ with
  | nil => exact hsame _
  | cons st rest ih =>
    unfold laidBody
    dsimp only
    split
    · exact .cons (hline ..) (ih open_)
    · exact List.rel_append (hsame _) (.cons (hline ..) (ih (headers st)))

/-- The layouts with and without overrides agree. -/
theorem alike_layout (u : Printer) : Layout.Alike u.overrides u.bare.layout u.layout := by
  have hchain := fun t => (u.alike_laidChain u.depth t).same_or_touched
  exact .cons (.same _)
    (List.rel_append (alike_laidBody hchain [] _) (List.forall₂_same.2 fun l _ => .same l))

end Alike

end Printer

/-- Overrides are local.  The text of a plan with overrides and the text without them have the same
lines in the same order: the names that are searched, the blocks, the surface that is shown, and the
chains, each with the same calls and the same output.  In a call the same stands for every argument
that is not overridden, unless it is a chain that has an overridden step in it, and of such a chain
the same is true again. -/
theorem overrides_local {p : Plan} {registry : Registry} {o : Overrides} {text : String}
    (h : p.source registry o = .ok text) :
    let plain : Printer := { plan := p, registry }
    let given : Printer := { plan := p, registry, overrides := o }
    p.source registry {} = .ok (Layout.text plain.layout) ∧ text = Layout.text given.layout ∧
      Layout.Alike o plain.layout given.layout := by
  intro plain given
  have hgiven : text = given.text := by
    unfold Plan.source at h
    dsimp only at h
    split at h
    · cases h
    · exact (Except.ok.inj h).symm
  have hplain : p.source registry {} = .ok plain.text := by
    have hfits : plain.refusal? = none := by simp [Printer.refusal?, plain]
    unfold Plan.source
    dsimp only
    rw [hfits]
  exact ⟨hplain.trans (congrArg Except.ok Printer.text_layout.symm),
    hgiven.trans Printer.text_layout.symm, given.alike_layout⟩

/-! ## an overridden step in an argument of another -/

/-- An operation that begins chains, and one that mixes its input with another chain. -/
def loft : Registry where
  ops := {
    specs := .ofList [("ink", { name := "ink", args := [{ name := "wet", type := .boolean }] }),
      ("mix", { name := "mix", args := [{ name := "tex", type := .surface },
                  { name := "fast", type := .boolean }] })]
    starters := ["ink"] }

def loftSource : Bytes := .ofString "search s ink().mix(tex: ink(), fast: true).out(o0)"

def loftTokens : List Token :=
  let token (col : Nat) (kind : TokenKind) (word : String) : Token :=
    ⟨kind, Bytes.ofString word, ⟨1, col⟩⟩
  [token 1 .keyword "search", token 8 .identifier "s", token 10 .identifier "ink",
    token 13 .lparen "(", token 14 .rparen ")", token 15 .dot ".", token 16 .identifier "mix",
    token 19 .lparen "(", token 20 .identifier "tex", token 23 .colon ":",
    token 25 .identifier "ink", token 28 .lparen "(", token 29 .rparen ")", token 30 .comma ",",
    token 32 .identifier "fast", token 36 .colon ":", token 38 .keyword "true",
    token 42 .rparen ")", token 43 .dot ".", token 44 .identifier "out", token 47 .lparen "(",
      token 48 .surface "o0", token 50 .rparen ")", token 51 .endOfInput ""]

def loftProgram : Program where
  search := ["s"]
  statements :=
    let ns := { resolved := true, search := ["s"] }
    let ink (col : Nat) : Call := { name := "ink", ns, pos := ⟨1, col⟩ }
    let kwargs : List (KeywordOf Expr) :=
      [⟨"tex", .call (ink 25), ⟨1, 20⟩⟩, ⟨"fast", .bool true ⟨1, 38⟩, ⟨1, 32⟩⟩]
    let mix : Call := { name := "mix", kwargs, ns, pos := ⟨1, 16⟩ }
    [.run { calls := [ink 10, mix], out := some (.surface ⟨.output, 0⟩ ⟨1, 48⟩), pos := ⟨1, 10⟩ }
      ⟨1, 10⟩]

def loftPlan : Plan where
  search := ["s"]
  steps :=
    let ns := { resolved := true, search := ["s"] }
    [{ op := "ink", args := .ofList [("wet", .boolean false)], temp := 0, ns, pos := ⟨1, 10⟩ },
      { op := "ink", args := .ofList [("wet", .boolean false)], temp := 1, ns, pos := ⟨1, 25⟩ },
      { op := "mix", args := .ofList [("tex", .ref ⟨.temp, 1⟩), ("fast", .boolean true)],
        explicit := ["tex", "fast"], source := some 0, temp := 2, ns, out := some ⟨.output, 0⟩,
          pos := ⟨1, 16⟩ }]

/-- The chain in the argument and the step it is an argument of, both overridden. -/
def loftOverrides : Overrides :=
  ⟨[(1, .ofList [("wet", .bool true)]), (2, .ofList [("fast", .bool false)])]⟩

theorem loft_parse : Program.parse {} loftSource = .ok loftProgram := by
  have hscan : Token.scan loftSource = .ok loftTokens := by
    rw [show loftSource = _ from Bytes.ofString_ofList _]
    decide +kernel
  have htokens : Program.ofTokens {} loftTokens = .ok loftProgram := by cbv
  have hboth : (Token.scan loftSource >>= Program.ofTokens {}) = .ok loftProgram := by
    rw [hscan]
    exact htokens
  rw [Program.parse, hboth]

theorem loft_plan : loftProgram.plan loft {} = .ok loftPlan := rfl

theorem loft_source : loftPlan.source loft loftOverrides =
    .ok "search s\nink().mix(tex: ink(wet: true), fast: false).out(o0)\n" := by cbv

/-- The two texts have the same lines. -/
theorem loft_laid_alike : loftPlan.source loft loftOverrides =
      .ok "search s\nink().mix(tex: ink(wet: true), fast: false).out(o0)\n" ∧
    let plain : Printer := { plan := loftPlan, registry := loft }
    let given : Printer := { plan := loftPlan, registry := loft, overrides := loftOverrides }
    loftPlan.source loft {} = .ok (Layout.text plain.layout) ∧
      "search s\nink().mix(tex: ink(wet: true), fast: false).out(o0)\n" = Layout.text given.layout ∧
      Layout.Alike loftOverrides plain.layout given.layout :=
  ⟨loft_source, overrides_local loft_source⟩

/-- The argument `tex` of the last step is not overridden, and still its text is another one. -/
theorem loft_argument_changes : Program.parse {} loftSource = .ok loftProgram ∧
    loftProgram.plan loft {} = .ok loftPlan ∧ loftPlan.diagnostics = [] ∧
    loftPlan.source loft {} = .ok "search s\nink().mix(tex: ink(), fast: true).out(o0)\n" ∧
    loftPlan.source loft loftOverrides =
      .ok "search s\nink().mix(tex: ink(wet: true), fast: false).out(o0)\n" ∧
    let plain : Printer := { plan := loftPlan, registry := loft }
    let given : Printer := { plan := loftPlan, registry := loft, overrides := loftOverrides }
    ∃ st ∈ loftPlan.steps, ∃ a ∈ given.argSpecs st, loftOverrides.Touches st.temp ∧
      loftOverrides.get? st.temp a.name = none ∧
      plain.argText? (plain.chainText loftPlan.steps.length) st a = some "tex: ink()" ∧
      given.argText? (given.chainText loftPlan.steps.length) st a = some "tex: ink(wet: true)" := by
  refine ⟨loft_parse, loft_plan, rfl, by decide +kernel, loft_source, loftPlan.steps[2],
    List.getElem_mem _, { name := "tex", type := .surface }, List.mem_cons_self, ⟨"fast", rfl⟩,
      rfl, ?_, ?_⟩
  · decide +kernel
  · decide +kernel

end EffectChain
