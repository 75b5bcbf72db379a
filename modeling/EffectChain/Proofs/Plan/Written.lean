import EffectChain.Proofs.Plan.Calls
import EffectChain.Proofs.Plan.Reported
import EffectChain.Proofs.Program.Statements

/-!
# EffectChain.Proofs.Plan.Written

Where the arguments of steps are written.

A variable for a call adds the arguments of that call, so a call that becomes a step may be put
together from several calls of the program (`Assembled`), and it has the arguments of them all
(`CallOf.Collects`).

* `Program.Furnishes` — the calls of variables are put together in this way, wherever lowering comes
  to in a program without problems;
* `Site.PutTogether` — so is the call of every step; but if it comes from a variable, and its
  operation has the name of a variable, the arguments of that variable are added once more;
* `explicit_written` — the explicit arguments of a step are those that are written in these calls.
-/

namespace EffectChain

open Emitted

/-! ## what is written in a program -/

/-- A part of an expression is as well-formed as the whole. -/
theorem Expr.Formed.part {ts : List Token} {e w : Expr} (h : e.Formed ts) (hw : w ∈ e.parts) :
    w.Formed ts := by
  induction h with
  | @leaf e h =>
      have hcalls : e.calls = [] := by cases e <;> first | rfl | exact h.elim
      rw [Expr.parts_eq, hcalls] at hw
      obtain rfl := List.mem_singleton.1 hw
      exact .leaf h
  | @call c hcall hwritten htext ih =>
      rw [Expr.parts_eq, List.mem_cons, List.mem_flatMap] at hw
      rcases hw with rfl | ⟨c', hc', hw⟩
      · exact .call hcall hwritten htext
      · obtain rfl := List.mem_singleton.1 hc'
        obtain ⟨e, he, hw⟩ := List.mem_flatMap.1 hw
        exact ih e he hw
  | @chain ch hstart hcalls hwritten hout htext ih _ =>
      rw [Expr.parts_eq, List.mem_cons, List.mem_flatMap] at hw
      rcases hw with rfl | ⟨c, hc, hw⟩
      · exact .chain hstart hcalls hwritten hout htext
      · obtain ⟨e, he, hw⟩ := List.mem_flatMap.1 hw
        exact ih c hc e he hw

namespace Stmt

theorem mem_exprsBlock {stmts : List Stmt} {e : Expr} :
    e ∈ exprsBlock stmts ↔ ∃ st ∈ stmts, e ∈ st.exprs := by
  induction stmts with
  | nil => simp [exprsBlock]
  | cons st rest ih => simp [exprsBlock, ih]

/-- The expressions of the arms are those of their blocks. -/
theorem mem_exprsArms {arms : List Branch} {e : Expr} :
    e ∈ exprsArms arms ↔ ∃ arm ∈ arms, e ∈ exprsBlock arm.body := by
  induction arms with
  | nil => simp [exprsArms]
  | cons arm rest ih =>
      obtain ⟨cond, body, pos⟩ := arm
      simp [exprsArms, ih]

/-- The expressions of a well-formed statement are well-formed. -/
theorem Formed.exprs {ts : List Token} {inLoop : Bool} {st : Stmt} (h : st.Formed ts inLoop) :
    ∀ e ∈ st.exprs, e.Formed ts := by
  induction h with
  | bind h => simpa [Stmt.exprs] using h
  | run h => simpa [Stmt.exprs] using h
  | @choose inLoop arms otherwise pos hconds harms hother iharms ihother =>
      have hbranches : ∀ e ∈ exprsArms arms, e.Formed ts := by
        intro e he
        obtain ⟨arm, harm, he⟩ := mem_exprsArms.1 he
        obtain ⟨st, hst, he⟩ := mem_exprsBlock.1 he
        exact iharms arm harm st hst e he
      cases otherwise with
      | none => simpa [Stmt.exprs] using hbranches
      | some body =>
          rw [Stmt.exprs]
          refine List.forall_mem_append.2 ⟨hbranches, fun e he => ?_⟩
          obtain ⟨st, hst, he⟩ := mem_exprsBlock.1 he
          exact ihother body rfl st hst e he
  | repeated hcount hbody ih =>
      intro e he
      obtain ⟨st, hst, he⟩ := mem_exprsBlock.1 (by simpa [Stmt.exprs] using he)
      exact ih st hst e he
  | leaveLoop | nextRound | finish => simp [Stmt.exprs]

end Stmt

namespace Program

/-- The expression is part of the program. -/
def Contains (p : Program) (e : Expr) : Prop :=
  ∃ root ∈ Stmt.exprsBlock p.statements, e ∈ root.parts

/-- The call is written in the program. -/
def Writes (p : Program) (c : Call) : Prop := ∃ e, p.Contains e ∧ c ∈ e.calls

variable {p : Program}

theorem Contains.root {e : Expr} (h : e ∈ Stmt.exprsBlock p.statements) : p.Contains e :=
  ⟨e, h, by rw [Expr.parts_eq]; exact List.mem_cons_self⟩

theorem Writes.contains {c : Call} {w : Expr} (h : p.Writes c) (hw : w ∈ c.written) :
    p.Contains w := by
  obtain ⟨e, ⟨root, hroot, he⟩, hc⟩ := h
  exact ⟨root, hroot, Expr.mem_parts_of_written he hc hw⟩

/-- Whatever a parsed program contains is well-formed. -/
theorem Contains.formed {options : Options} {source : Bytes}
    (hparse : Program.parse options source = .ok p) :
    ∃ ts, ∀ e, p.Contains e → e.Formed ts := by
  obtain ⟨ts, last, -, -, hp⟩ := exists_wellFormed hparse
  refine ⟨ts, fun e ⟨root, hroot, he⟩ => ?_⟩
  obtain ⟨st, hst, hroot⟩ := Stmt.mem_exprsBlock.1 hroot
  exact ((hp.statements st hst).exprs root hroot).part he

/-- No name is given twice in a call of a program that is read. -/
theorem Writes.distinct {options : Options} {source : Bytes}
    (hparse : Program.parse options source = .ok p) {c : Call} (h : p.Writes c) :
    (c.kwargs.map (·.name)).Nodup := by
  obtain ⟨ts, hformed⟩ := Contains.formed hparse
  obtain ⟨e, he, hc⟩ := h
  cases hformed e he with
  | leaf hleaf => cases e <;> first | exact hleaf.elim | simp [Expr.calls] at hc
  | call hcall =>
      obtain rfl := List.mem_singleton.1 hc
      exact hcall.distinct
  | chain _ hcalls => exact (hcalls c hc).distinct

/-- A chain of a program that is read has a base or calls. -/
theorem Contains.chain {options : Options} {source : Bytes}
    (hparse : Program.parse options source = .ok p) {ch : Chain} (h : p.Contains (.chain ch)) :
    ch.base.isSome ∨ ch.calls ≠ [] := by
  obtain ⟨ts, hformed⟩ := Contains.formed hparse
  cases hformed _ h with
  | leaf hleaf => exact hleaf.elim
  | chain hstart => exact hstart

end Program

/-! ## the arguments of several calls -/

theorem find?_keyword_eq_none {ks : List Keyword} {name : String} (h : name ∉ ks.map (·.name)) :
    ks.find? (·.name = name) = none :=
  List.find?_eq_none.2 fun k hk heq => h (List.mem_map.2 ⟨k, hk, by simpa using heq⟩)

namespace Bindings

theorem find?_putKeyword (k : Keyword) (ks : List Keyword) (name : String) :
    (putKeyword k ks).find? (·.name = name) = if k.name = name then some k
      else ks.find? (·.name = name) := by
  fun_induction putKeyword k ks <;> grind

theorem names_putKeyword (k : Keyword) (ks : List Keyword) : (putKeyword k ks).map (·.name) =
    if k.name ∈ ks.map (·.name) then ks.map (·.name) else ks.map (·.name) ++ [k.name] := by
  fun_induction putKeyword k ks <;> grind

/-- Of the keywords that are put over others, each goes before those. -/
theorem find?_foldl_putKeyword {us : List Keyword} (hus : (us.map (·.name)).Nodup)
    (ks : List Keyword) (name : String) :
    (us.foldl (fun ks k => putKeyword k ks) ks).find? (·.name = name) =
      (us.find? (·.name = name)).or (ks.find? (·.name = name)) := by
  induction us generalizing ks with
  | nil => simp
  | cons u us ih =>
      rw [List.map_cons, List.nodup_cons] at hus
      rw [List.foldl_cons, ih hus.2, find?_putKeyword, List.find?_cons]
      by_cases hu : u.name = name
      · simp [hu, find?_keyword_eq_none (hu ▸ hus.1)]
      · simp [hu]

/-- Keywords put one by one have different names. -/
theorem nodup_foldl_putKeyword (us : List Keyword) {ks : List Keyword}
    (hks : (ks.map (·.name)).Nodup) :
    ((us.foldl (fun ks k => putKeyword k ks) ks).map (·.name)).Nodup := by
  induction us generalizing ks with
  | nil => exact hks
  | cons u us ih =>
      refine ih ?_
      rw [names_putKeyword]
      split
      · exact hks
      · next hu => exact List.nodup_append.2 ⟨hks, List.nodup_singleton _, by simp_all⟩

end Bindings

/-- What is given for a name in a call. -/
def CallOf.keyword? (c : Call) (name : String) : Option Expr :=
  (c.kwargs.find? (·.name = name)).map (·.value)

/-- What is given for a name in several calls: the last one that has it counts. -/
def lastKeyword? (name : String) : List Call → Option Expr
  | [] => none
  | c :: cs => (lastKeyword? name cs).or (c.keyword? name)

/-- The last keyword over two lists of calls is the one of the later list, if it has any. -/
theorem lastKeyword?_append (name : String) (cs cs' : List Call) :
    lastKeyword? name (cs ++ cs') = (lastKeyword? name cs').or (lastKeyword? name cs) := by
  induction cs with
  | nil => simp [lastKeyword?]
  | cons c cs ih => rw [List.cons_append, lastKeyword?, ih, lastKeyword?, Option.or_assoc]

theorem CallOf.isSome_keyword? {c : Call} {name : String} :
    (c.keyword? name).isSome ↔ name ∈ c.kwargs.map (·.name) := by
  simp [keyword?]

/-- A keyword is found over calls when one of them gives its name. -/
theorem isSome_lastKeyword? {name : String} {cs : List Call} :
    (lastKeyword? name cs).isSome ↔ ∃ c ∈ cs, name ∈ c.kwargs.map (·.name) := by
  induction cs with
  | nil => simp [lastKeyword?]
  | cons c cs ih =>
      rw [lastKeyword?, Option.isSome_or, Bool.or_eq_true, ih, CallOf.isSome_keyword?]
      simp only [List.mem_cons, exists_eq_or_imp]
      exact Or.comm

/-- The call has the arguments of several calls: all the positional ones in order, and of the
keyword ones of a name the last. -/
structure CallOf.Collects (c : Call) (ws : List Call) : Prop where
  args : c.args = ws.flatMap (·.args)
  keyword : ∀ name, c.keyword? name = lastKeyword? name ws
  distinct : (c.kwargs.map (·.name)).Nodup

namespace CallOf.Collects

variable {c base use : Call} {ws us : List Call}

theorem none (name : String) (pos : Pos) : CallOf.Collects { name, pos } [] :=
  ⟨rfl, fun _ => rfl, List.nodup_nil⟩

theorem single (h : (c.kwargs.map (·.name)).Nodup) : c.Collects [c] :=
  ⟨by simp, fun name => by simp [lastKeyword?], h⟩

/-- Neither the name of a call nor its namespaces are among its arguments. -/
theorem renamed (h : c.Collects ws) (name : String) (ns : NamespaceRef) :
    CallOf.Collects { c with name, ns } ws :=
  ⟨h.args, h.keyword, h.distinct⟩

/-- A merged call collects the keywords of both. -/
theorem merge (hbase : base.Collects ws) (huse : use.Collects us) :
    (Bindings.mergeCall base use).Collects (ws ++ us) where
  args := by simp [Bindings.mergeCall, hbase.args, huse.args]
  keyword name := by
    rw [lastKeyword?_append, ← huse.keyword, ← hbase.keyword]
    simp only [keyword?, Bindings.mergeCall, Bindings.find?_foldl_putKeyword huse.distinct,
      Option.map_or]
  distinct := Bindings.nodup_foldl_putKeyword _ hbase.distinct

/-- Calls without arguments can be left out. -/
theorem of_empty (h : c.Collects ws) (huse : use.Collects us) (hargs : use.args = [])
    (hkwargs : use.kwargs = []) :
    c.Collects (ws ++ us) where
  args := by rw [List.flatMap_append, ← huse.args, hargs, List.append_nil, h.args]
  keyword name := by
    rw [lastKeyword?_append, ← huse.keyword, h.keyword]
    simp [keyword?, hkwargs]
  distinct := h.distinct

end CallOf.Collects

/-! ## arguments by name -/

/-- What is written for a parameter in several calls: by its name, else at its position. -/
def OpSpec.writtenIn? (spec : OpSpec) (ws : List Call) (name : String) : Option Expr :=
  (lastKeyword? name ws).or ((spec.index? name).bind fun i => (ws.flatMap (·.args))[i]?)

/-- A keyword that is found is one of the parameters. -/
theorem OpSpec.parameter_of_writtenIn? {spec : OpSpec} {ws : List Call} {name : String}
    (hknown : ∀ w ∈ ws, ∀ kw ∈ w.kwargs, ∃ a ∈ spec.args, a.name = kw.name)
    (h : (spec.writtenIn? ws name).isSome) : ∃ a ∈ spec.args, a.name = name := by
  rw [writtenIn?, Option.isSome_or, Bool.or_eq_true, isSome_lastKeyword?] at h
  rcases h with ⟨w, hw, hname⟩ | h
  · obtain ⟨kw, hkw, rfl⟩ := List.mem_map.1 hname
    exact hknown w hw kw hkw
  · obtain ⟨e, he⟩ := Option.isSome_iff_exists.1 h
    obtain ⟨i, hi, -⟩ := Option.bind_eq_some_iff.1 he
    obtain ⟨hlt, hname, -⟩ := List.findIdx?_eq_some_iff_getElem.1 hi
    exact ⟨spec.args[i], List.getElem_mem hlt, by simpa using hname⟩

namespace Surroundings

variable {s : Surroundings} {canonical name : String}

/-- Positional arguments are given to the parameters in order. -/
theorem get?_positional {as : List ArgSpec} (has : (as.map (·.name)).Nodup) (es : List Expr)
    (t : Table Expr) :
    (positional canonical t as es).1.get? name =
      ((as.findIdx? (·.name = name)).bind (es[·]?)).or (t.get? name) := by
  induction as generalizing es t with
  | nil => cases es <;> simp [positional]
  | cons a as ih =>
      rw [List.map_cons, List.nodup_cons] at has
      cases es with
      | nil => cases h : (a :: as).findIdx? (·.name = name) <;> simp [positional]
      | cons e es =>
          rw [positional, ih has.2, Table.get?_insert, List.findIdx?_cons]
          by_cases ha : a.name = name
          · have hrest : as.findIdx? (·.name = name) = none :=
              List.findIdx?_eq_none_iff.2 fun b hb => by
                have hne : b.name ≠ name := fun heq => has.1 (ha ▸ heq ▸ List.mem_map_of_mem hb)
                simpa using hne
            simp [ha, hrest]
          · simp [ha, Ne.symm ha, Option.bind_map]

/-- No more positional arguments are taken than there are parameters. -/
theorem length_positional {as : List ArgSpec} {es : List Expr} {t : Table Expr}
    (h : (positional canonical t as es).2 = []) : es.length ≤ as.length := by
  fun_induction positional canonical t as es with
  | case1 => simp
  | case2 => cases h
  | case3 t a as e es ih => simpa using ih h

/-- Keywords that are all known are laid over the positional arguments. -/
theorem keywords_eq {k : Checker} {spec : OpSpec} {t : Table Expr} {kws : List Keyword}
    (h : (keywords k spec canonical t kws).2 = []) : (∀ kw ∈ kws, (spec.arg? kw.name).isSome) ∧
      (keywords k spec canonical t kws).1 =
        kws.foldl (fun t kw => t.insert kw.name kw.value) t := by
  fun_induction keywords k spec canonical t kws with
  | case1 => simp
  | case2 t kw kws hkw ih => exact ⟨List.forall_mem_cons.2 ⟨hkw, (ih h).1⟩, (ih h).2⟩
  | case3 => cases h

/-- A keyword argument overrules what was given before it. -/
theorem get?_foldl_insert_keywords {kws : List Keyword} (hkws : (kws.map (·.name)).Nodup)
    (t : Table Expr) :
    (kws.foldl (fun t kw => t.insert kw.name kw.value) t).get? name =
      ((kws.find? (·.name = name)).map (·.value)).or (t.get? name) := by
  induction kws generalizing t with
  | nil => simp
  | cons kw kws ih =>
      rw [List.map_cons, List.nodup_cons] at hkws
      rw [List.foldl_cons, ih hkws.2, Table.get?_insert, List.find?_cons]
      by_cases hkw : kw.name = name
      · simp [hkw, find?_keyword_eq_none (hkw ▸ hkws.1)]
      · simp [hkw, Ne.symm hkw]

/-- What a call gives for its parameters is what is written in the calls whose arguments it has, if
nothing is wrong with them. -/
theorem given_collects {sub : LowerChain} {base : Nat} {c : Call} {spec : OpSpec} {ws : List Call}
    (hnames : (spec.args.map (·.name)).Nodup) (hc : c.Collects ws)
    (hclean : (s.arguments sub base c spec).out.problems = []) :
    (ws.flatMap (·.args)).length ≤ spec.args.length ∧
    (∀ w ∈ ws, ∀ kw ∈ w.kwargs, ∃ a ∈ spec.args, a.name = kw.name) ∧
    ∀ name, (s.given c spec).get? name = spec.writtenIn? ws name := by
  have hbegun : (positional spec.name {} spec.args c.args).2 ++ (keywords s.checker spec spec.name
      (positional spec.name {} spec.args c.args).1 c.kwargs).2 ⊆
          (s.arguments sub base c spec).out.problems :=
    (among_foldl_take base (s.given c spec) spec.args { out := notes (_ ++ _) }).problems
  rw [hclean, List.subset_nil] at hbegun
  obtain ⟨hpositional, hkeywords⟩ := List.append_eq_nil_iff.1 hbegun
  obtain ⟨hknown, heq⟩ := keywords_eq hkeywords
  refine ⟨hc.args ▸ length_positional hpositional, fun w hw kw hkw => ?_, fun name => ?_⟩
  · have hlast : (lastKeyword? kw.name ws).isSome :=
      isSome_lastKeyword?.2 ⟨w, hw, List.mem_map_of_mem hkw⟩
    rw [← hc.keyword, CallOf.isSome_keyword?] at hlast
    obtain ⟨kw', hkw', hname⟩ := List.mem_map.1 hlast
    obtain ⟨a, ha⟩ := Option.isSome_iff_exists.1 (hknown kw' hkw')
    exact ⟨a, List.mem_of_find?_eq_some ha, by simpa [hname] using List.find?_some ha⟩
  · rw [given, heq, get?_foldl_insert_keywords hc.distinct, get?_positional hnames, hc.args]
    have hkeyword := hc.keyword name
    rw [CallOf.keyword?] at hkeyword
    simp [hkeyword, OpSpec.writtenIn?, OpSpec.index?]

end Surroundings

/-! ## the calls of variables -/

/-- The variables that the bindings of a program lead to. -/
inductive Program.Scope (p : Program) : Bindings → Prop where
  | empty : Scope p {}
  | bind {vars : Bindings} {value : Expr} (h : Scope p vars) (hvalue : p.Contains value)
      (name : String) :
      Scope p (vars.bind name value).1

/-- The call is put together from calls of the program: what is left when the variables in the last
of them are replaced. -/
inductive Assembled (p : Program) : List Call → Call → Prop where
  /-- A chain that starts with a variable for a name starts with a call without arguments. -/
  | bare (name : String) (pos : Pos) : Assembled p [] { name, pos }
  /-- A variable for a name renames the call. -/
  | written {c : Call} (h : p.Writes c) (name : String) (ns : NamespaceRef) : Assembled p [c]
      { c with name, ns }
  /-- A variable for a call adds the arguments to those of that call. -/
  | applied {vars : Bindings} {ws : List Call} {base use : Call} (hvars : p.Scope vars)
      (hvar : vars.get? use.name = some (.call base)) (huse : p.Writes use)
        (hbase : Assembled p ws base) :
      Assembled p (ws ++ [use]) (Bindings.mergeCall base use)

namespace Assembled

variable {p : Program} {ws : List Call} {c : Call}

theorem self (h : p.Writes c) : Assembled p [c] c := written h c.name c.ns

/-- What stands in an assembled call is in the program. -/
theorem contains (h : Assembled p ws c) {w : Expr} (hw : w ∈ c.written) : p.Contains w := by
  induction h with
  | bare => simp [CallOf.written] at hw
  | written h => exact h.contains hw
  | applied _ _ huse _ ih => exact (Bindings.written_mergeCall hw).elim ih huse.contains

/-- An assembled call collects the keywords of the calls it is made of. -/
theorem collects {options : Options} {source : Bytes}
    (hparse : Program.parse options source = .ok p) (h : Assembled p ws c) : c.Collects ws := by
  induction h with
  | bare name pos => exact .none name pos
  | written h name ns => exact (CallOf.Collects.single (h.distinct hparse)).renamed name ns
  | applied _ _ huse _ ih => exact ih.merge (.single (huse.distinct hparse))

end Assembled

namespace Program

/-- The value of a variable is made of calls that are put together from those of the program; one of
a chain stands for some. -/
def Provides (p : Program) : Expr → Prop
  | .call c => ∃ ws, Assembled p ws c
  | .chain ch => ch.base = none ∧ ch.calls ≠ [] ∧ ∀ c ∈ ch.calls, ∃ ws, Assembled p ws c
  | _ => True

/-- The variables are those of a place in the program, where all of them have such values. -/
structure Furnishes (p : Program) (vars : Bindings) : Prop where
  scope : p.Scope vars
  values : ∀ v ∈ vars.values, p.Provides v

variable {p : Program} {vars : Bindings}

/-- The calls of an expression that a program provides are assembled. -/
theorem Provides.assembled {v : Expr} (h : p.Provides v) {c : Call} (hc : c ∈ v.calls) :
    ∃ ws, Assembled p ws c := by
  cases v with
  | call c' =>
      obtain rfl := List.mem_singleton.1 hc
      exact h
  | chain ch => exact h.2.2 c hc
  | _ => simp [Expr.calls] at hc

/-- The value of a variable has no base when it is given for a surface. -/
theorem Provides.base {v : Expr} (h : p.Provides v) {ch : Chain} (hch : v.asChain? = some ch) :
    ch.base = none := by
  cases v with
  | call c =>
      obtain rfl := Option.some.inj hch
      rfl
  | chain ch' =>
      obtain rfl := Option.some.inj hch
      exact h.1
  | _ => simp [Expr.asChain?] at hch

theorem Furnishes.get? (h : p.Furnishes vars) {name : String} {v : Expr}
    (hv : vars.get? name = some v) :
    p.Provides v :=
  h.values v (Table.mem_values_iff.2 ⟨name, hv⟩)

/-- A call of the program stands for calls that are put together. -/
theorem Furnishes.expandCall (h : p.Furnishes vars) {c c' : Call} (hc : p.Writes c)
    (hc' : c' ∈ (vars.expandCall c).1) : ∃ ws, Assembled p ws c' := by
  cases Bindings.mem_expandCall hc' with
  | self => exact ⟨_, .self hc⟩
  | renamed | qualified => exact ⟨_, .written hc _ _⟩
  | merged _ hv =>
      obtain ⟨ws, hws⟩ := h.get? hv
      exact ⟨_, .applied h.scope hv hc hws⟩
  | spliced _ hv hmem => exact (h.get? hv).assembled hmem

/-- The calls of an expanded base are assembled. -/
theorem Furnishes.expandBase (h : p.Furnishes vars) {ch : Chain} {c : Call}
    (hc : c ∈ (vars.expandBase ch).1) :
    ∃ ws, Assembled p ws c := by
  cases Bindings.mem_expandBase hc with
  | call _ hv => exact h.get? hv
  | spliced _ hv hmem => exact (h.get? hv).assembled hmem
  | named => exact ⟨_, .bare _ _⟩

/-- The calls of an expanded chain are assembled. -/
theorem Furnishes.expandChain (h : p.Furnishes vars) {ch : Chain} (hch : ∀ c ∈ ch.calls, p.Writes c)
    {c : Call} (hc : c ∈ (vars.expandChain ch).1) : ∃ ws, Assembled p ws c := by
  rcases Bindings.mem_expandChain hc with hc | ⟨c', hc', hc⟩
  · exact h.expandBase hc
  · exact h.expandCall (hch c' hc') hc

/-- A call stands for calls, or there is a problem. -/
theorem Furnishes.told_expandCall (h : p.Furnishes vars) (c : Call)
    (hnil : (vars.expandCall c).1 = []) :
    (vars.expandCall c).2 ≠ [] := by
  unfold Bindings.expandCall at hnil ⊢
  split at hnil
  · simp at hnil
  · split at hnil
    case h_5 ch hv => exact absurd hnil (h.get? hv).2.1
    case h_6 => simp_all
    all_goals simp at hnil

/-- A base that expands to nothing is reported. -/
theorem Furnishes.told_expandBase (h : p.Furnishes vars) {ch : Chain} (hbase : ch.base.isSome)
    (hnil : (vars.expandBase ch).1 = []) : (vars.expandBase ch).2 ≠ [] := by
  obtain ⟨base, hbase⟩ := Option.isSome_iff_exists.1 hbase
  unfold Bindings.expandBase at hnil ⊢
  rw [hbase] at hnil ⊢
  dsimp only at hnil ⊢
  split at hnil
  case h_2 ch' hv => exact absurd hnil (h.get? hv).2.1
  case h_4 => simp_all
  all_goals simp at hnil

/-- A chain with a base or calls stands for calls, or there is a problem. -/
theorem Furnishes.told_expandChain (h : p.Furnishes vars) {ch : Chain}
    (hch : ch.base.isSome ∨ ch.calls ≠ []) :
    (vars.expandChain ch).1 ≠ [] ∨ (vars.expandChain ch).2 ≠ [] := by
  rw [← not_and_or, Bindings.expandChain_eq]
  rintro ⟨hcalls, hds⟩
  rw [List.append_eq_nil_iff] at hcalls hds
  rcases hch with hbase | hsome
  · exact h.told_expandBase hbase hcalls.1 hds.1
  · obtain ⟨c, cs, hcs⟩ := List.exists_cons_of_ne_nil hsome
    have hc : c ∈ ch.calls := hcs ▸ List.mem_cons_self
    exact h.told_expandCall c (List.flatMap_eq_nil_iff.1 hcalls.2 c hc)
      (List.flatMap_eq_nil_iff.1 hds.2 c hc)

/-- Binding a value of a program that reports nothing leads to such variables again. -/
theorem Furnishes.bind {options : Options} {source : Bytes}
    (hparse : Program.parse options source = .ok p) (h : p.Furnishes vars) (name : String)
    {value : Expr} (hvalue : p.Contains value) (hclean : (vars.bind name value).2 = []) :
    p.Furnishes (vars.bind name value).1 := by
  have hinsert : ∀ v, (vars.bind name value).1 = vars.insert name v → p.Provides v →
      p.Furnishes (vars.bind name value).1 := by
    refine fun v heq hv => ⟨h.scope.bind hvalue name, fun w hw => ?_⟩
    rw [heq] at hw
    obtain ⟨k, hk⟩ := Table.mem_values_iff.1 hw
    rw [Table.get?_insert] at hk
    split at hk
    · exact Option.some.inj hk ▸ hv
    · exact h.get? hk
  cases value with
  | ident other pos =>
      refine hinsert _ rfl ?_
      cases hv : vars.get? other with
      | none => trivial
      | some v => exact h.get? hv
  | call c =>
      have hall : ∀ c' ∈ (vars.expandCall c).1, ∃ ws, Assembled p ws c' := fun c' hc' =>
        h.expandCall ⟨_, hvalue, List.mem_singleton.2 rfl⟩ hc'
      have htold := h.told_expandCall c
      unfold Bindings.bind at hclean hinsert ⊢
      rcases hc : vars.expandCall c with ⟨calls, ds⟩
      rw [hc] at hall htold
      simp only [hc] at hclean hinsert ⊢
      split at hclean <;> simp_all [Provides]
  | chain ch =>
      refine hinsert _ rfl ⟨rfl, fun hnil => ?_, fun c hc => ?_⟩
      · exact (h.told_expandChain (hvalue.chain hparse)).elim (· hnil) (· hclean)
      · exact h.expandChain (fun c hc => ⟨_, hvalue, hc⟩) hc
  | _ => exact hinsert _ rfl trivial

theorem furnishes_binds {options : Options} {source : Bytes}
    (hparse : Program.parse options source = .ok p) :
    Surroundings.Binds [] p.Contains p.Furnishes :=
  ⟨fun _ name _ h hvalue hds => h.bind hparse name hvalue (List.subset_nil.1 hds)⟩

/-- What is written in the calls an expression stands for is part of the program. -/
theorem Furnishes.contains (h : p.Furnishes vars) {e : Expr} (he : p.Contains e) {ch : Chain}
    (hch : (vars.deref e).asChain? = some ch) {c : Call} (hc : c ∈ (vars.expandChain ch).1)
    {w : Expr} (hw : w ∈ c.written) : p.Contains w := by
  have hvalue : ∀ v ∈ vars.values, ∀ c ∈ v.calls, ∀ w ∈ c.written, p.Contains w := by
    intro v hv c hc w hw
    obtain ⟨ws, hws⟩ := (h.values v hv).assembled hc
    exact hws.contains hw
  rcases Bindings.written_expandChain hc hw with ⟨c', hc', hw⟩ | ⟨v, hv, c', hc', hw⟩
  · rw [Expr.calls_of_asChain? hch] at hc'
    rcases vars.deref_cases e with heq | hv
    · exact Writes.contains ⟨e, he, heq ▸ hc'⟩ hw
    · exact hvalue _ hv c' hc' w hw
  · exact hvalue v hv c' hc' w hw

/-- What is given for a surface has a base or calls. -/
theorem Furnishes.starts {options : Options} {source : Bytes}
    (hparse : Program.parse options source = .ok p) (h : p.Furnishes vars) {e : Expr}
    (he : p.Contains e) {ch : Chain} (hch : (vars.deref e).asChain? = some ch) :
    ch.base.isSome ∨ ch.calls ≠ [] := by
  have hvalue : p.Contains (vars.deref e) ∨ p.Provides (vars.deref e) := by
    refine (vars.deref_cases e).imp (fun heq => ?_) (h.values _)
    rwa [heq]
  generalize vars.deref e = v at hch hvalue
  cases v with
  | call c =>
      obtain rfl := Option.some.inj hch
      exact .inr (List.cons_ne_nil _ _)
  | chain ch' =>
      obtain rfl := Option.some.inj hch
      exact hvalue.elim (fun hv => hv.chain hparse) fun hv => .inr hv.2.1
  | _ => simp [Expr.asChain?] at hch

/-- What an expression of the program leads to is in the program. -/
theorem Furnishes.gives {s : Surroundings} (h : p.Furnishes s.vars) {e e' : Expr}
    (hpath : Relation.ReflTransGen s.Gives e e') (he : p.Contains e) : p.Contains e' := by
  induction hpath with
  | refl => exact he
  | tail _ hgives ih =>
      obtain ⟨ch, hch, call, hcall, a, -, -, hgiven⟩ := hgives
      exact h.contains ih hch (Surroundings.mem_of_taken hcall) (Surroundings.written_given hgiven)

end Program

/-! ## what steps are put together from -/

/-- The calls whose arguments a call is given that is not written but comes from a variable, and in
which variables are replaced nevertheless. -/
def Bindings.renewed (vars : Bindings) (b : Call) : List Call :=
  if b.ns.explicit then [] else ((vars.get? b.name).map Expr.calls).getD []

/-- What is renewed is put together from `again`. -/
def Program.Renews (p : Program) (vars : Bindings) (b : Call) (again : List Call) : Prop :=
  (vars.renewed b = [] ∧ again = []) ∨ ∃ c ∈ vars.renewed b, Assembled p again c

/-- An expanded call is assembled anew, from the calls of the variable and of its use. -/
theorem Program.Furnishes.renews {options : Options} {source : Bytes} {p : Program}
    {vars : Bindings} (hparse : Program.parse options source = .ok p) (h : p.Furnishes vars)
    {b c : Call} {ws : List Call} (hb : Assembled p ws b) (hc : c ∈ (vars.expandCall b).1)
    (hclean : (vars.expandCall b).2 = []) :
    ∃ again, p.Renews vars b again ∧ c.Collects (again ++ ws) := by
  have hws := hb.collects hparse
  have hnone : vars.renewed b = [] → c.Collects ws → ∃ again, p.Renews vars b again ∧
      c.Collects (again ++ ws) :=
    fun hnil hsame => ⟨[], .inl ⟨hnil, rfl⟩, hsame⟩
  cases Bindings.mem_expandCall hc with
  | self hself =>
      refine hnone ?_ hws
      rcases hself with hns | hv
      · exact if_pos hns
      · simp [Bindings.renewed, hv]
  | renamed _ hv => exact hnone (by simp [Bindings.renewed, hv, Expr.calls]) (hws.renamed _ _)
  | qualified _ hv => exact hnone (by simp [Bindings.renewed, hv, Expr.calls]) (hws.renamed _ _)
  | @merged base hns hv =>
      obtain ⟨again, hagain⟩ := h.get? hv
      refine ⟨again, .inr ⟨base, ?_, hagain⟩, (hagain.collects hparse).merge hws⟩
      simp [Bindings.renewed, hns, hv, Expr.calls]
  | @spliced ch _ hns hv hmem =>
      -- a variable for a chain takes no arguments, or there is a problem
      obtain ⟨again, hagain⟩ := (h.get? hv).assembled hmem
      refine ⟨again, .inr ⟨c, ?_, hagain⟩, ?_⟩
      · simpa [Bindings.renewed, hns, hv, Expr.calls] using hmem
      · have hempty : b.args = [] ∧
          b.kwargs = [] := by simpa [Bindings.expandCall, hns, hv] using hclean
        exact (hagain.collects hparse).of_empty hws hempty.1 hempty.2

namespace Site

variable {x : Site} {program : Program} {k : Checker} {st : Step}

/-- The call of the site is put together from `ws`.  Where it comes from a variable, what is renewed
adds the arguments of `again` to them. -/
inductive PutTogether (x : Site) (program : Program) : (ws again : List Call) → Prop where
  | once {ws : List Call} (hwritten : ∀ name pos, x.e ≠ .ident name pos)
      (hcall : Assembled program ws x.call) :
      PutTogether x program ws []
  | twice {name : String} {pos : Pos} {b : Call} {ws again : List Call}
      (hvar : x.e = .ident name pos)
      (hb : b ∈ (x.s.vars.deref x.e).calls) (hcall : x.call ∈ (x.s.vars.expandCall b).1)
      (hws : Assembled program ws b) (hagain : program.Renews x.s.vars b again) : PutTogether x
        program ws again

/-- The explicit arguments of the step are those that are written in the calls, where none is
unknown or one too many, and each has the value of what is written. -/
structure HasArguments (x : Site) (st : Step) (ws : List Call) : Prop where
  fits : (ws.flatMap (·.args)).length ≤ x.spec.args.length
  known : ∀ w ∈ ws, ∀ kw ∈ w.kwargs, ∃ a ∈ x.spec.args, a.name = kw.name
  explicit : ∀ name, name ∈ st.explicit ↔ (x.spec.writtenIn? ws name).isSome
  values : ∀ name ∈ st.explicit, ∃ a ∈ x.spec.args, a.name = name ∧ ∃ e base v,
    x.spec.writtenIn? ws name = some e ∧ (x.s.argument x.sub base a e).2 = some v ∧
      st.args.get? name = some v

/-- At every place of a program the bindings are furnished by it. -/
theorem In.furnishes {options : Options} {source : Bytes}
    (hparse : Program.parse options source = .ok program) (h : x.In program k []) :
    program.Furnishes x.s.vars ∧ program.Contains x.e := by
  obtain ⟨base, ch, pos, rest, hreach, hpath⟩ := h.reached
  obtain ⟨-, hvars, hexprs⟩ :=
    hreach.keeps (Program.furnishes_binds hparse) ⟨.empty, fun v hv => nomatch hv⟩
    (fun e he => .root he) (List.subset_nil.2 h.reports)
  exact ⟨hvars, hvars.gives hpath (hexprs _ (by simp [Stmt.exprsBlock, Stmt.exprs]))⟩

/-- The call of a site has the arguments of the calls it is put together from. -/
theorem exists_putTogether {options : Options} {source : Bytes}
    (hparse : Program.parse options source = .ok program) (h : x.Stands [])
    (hvars : program.Furnishes x.s.vars) (he : program.Contains x.e) :
    ∃ ws again, x.PutTogether program ws again ∧ x.call.Collects (again ++ ws) := by
  have hcall : x.call ∈ (x.s.vars.expandChain x.chain).1 := Surroundings.mem_of_taken h.taken
  by_cases hident : ∃ name pos, x.e = .ident name pos
  · obtain ⟨name, pos, hident⟩ := hident
    have hvalue : program.Provides (x.s.vars.deref x.e) := by
      rcases x.s.vars.deref_cases x.e with heq | hmem
      · have hchain := h.chain
        rw [heq, hident] at hchain
        cases hchain
      · exact hvars.values _ hmem
    have hbase : x.s.vars.expandBase x.chain = ([], []) := by
      rw [Bindings.expandBase, hvalue.base h.chain]
    have hclean := List.subset_nil.1 h.expanded
    rw [Bindings.expandChain_eq, hbase, List.nil_append] at hcall hclean
    obtain ⟨b, hb, hcall⟩ := List.mem_flatMap.1 hcall
    have hcalls := Expr.calls_of_asChain? h.chain
    obtain ⟨ws, hws⟩ := hvalue.assembled (hcalls ▸ hb)
    obtain ⟨again, hagain, hcollects⟩ :=
      hvars.renews hparse hws hcall (List.flatMap_eq_nil_iff.1 hclean b hb)
    exact ⟨ws, again, .twice hident (hcalls ▸ hb) hcall hws hagain, hcollects⟩
  · have hwritten : ∀ name pos, x.e ≠ .ident name pos := fun name pos heq => hident ⟨name, pos, heq⟩
    have hchain := h.chain
    rw [Bindings.deref_leaf hwritten] at hchain
    obtain ⟨ws, hws⟩ :=
      hvars.expandChain (fun c hc => ⟨x.e, he, Expr.calls_of_asChain? hchain ▸ hc⟩) hcall
    exact ⟨ws, [], .once hwritten hws, hws.collects hparse⟩

/-- What is written for a parameter is accepted if there is no problem with it. -/
theorem Stands.accepts {options : Options} {source : Bytes}
    (hparse : Program.parse options source = .ok program) (h : x.Stands [])
    (hvars : program.Furnishes x.s.vars) (he : program.Contains x.e) {a : ArgSpec}
    (ha : a ∈ x.spec.args) {e : Expr} (hgiven : x.given.get? a.name = some e) {base : Nat}
    (hclean : (x.s.argument x.sub base a e).1.problems = []) :
    (x.s.argument x.sub base a e).2.isSome := by
  by_contra hnone
  rw [Option.not_isSome_iff_eq_none] at hnone
  refine Surroundings.told_argument (fun hsurface ch hch hlast => ?_) hnone hclean
  have hnests : x.s.Nests x.chain ch := ⟨(x.call, x.spec), h.taken, a, ha, hsurface, e, hgiven, hch⟩
  have hends := h.ends
  unfold sub at hlast ⊢
  cases hdepth : x.depth with
  | zero => exact absurd ⟨ch, hnests, hdepth ▸ trivial⟩ hends
  | succ depth =>
      rw [hdepth] at hlast
      have hwritten :=
        hvars.contains he h.chain (Surroundings.mem_of_taken h.taken)
          (Surroundings.written_given hgiven)
      exact Surroundings.told_chainWith _ true base
        (hvars.told_expandChain (hvars.starts hparse hwritten hch)) hlast

end Site

/-- If nothing is wrong with a program, the explicit arguments of a step are those that are written
in the calls it is put together from, and each has a value. -/
theorem explicit_written {registry : Registry} {options options' : Options} {source : Bytes}
    {program : Program} {p : Plan} (hr : registry.ops.Built)
    (hparse : Program.parse options source = .ok program)
    (hplan : program.plan registry options' = .ok p) (hclean : p.diagnostics = []) :
    ∀ st ∈ p.steps, ∃ (x : Site) (ws again : List Call),
      x.In program { registry, suggest := options'.suggest } [] ∧ x.Makes st ∧
      x.PutTogether program ws again ∧
      x.HasArguments st (again ++ ws) := by
  intro st hst
  obtain ⟨x, hin, hmakes⟩ := Program.exists_site hplan hst
  rw [hclean] at hin
  obtain ⟨hvars, he⟩ := hin.furnishes hparse
  obtain ⟨ws, again, htogether, hcollects⟩ := Site.exists_putTogether hparse hin.toStands hvars he
  obtain ⟨hfits, hknown, hgiven⟩ :=
    Surroundings.given_collects (hin.nodup hr) hcollects (List.subset_nil.1 hin.noted)
  have hwritten : ∀ name, (x.spec.writtenIn? (again ++ ws) name).isSome → name ∈ st.explicit ∧
      ∃ a ∈ x.spec.args, a.name = name ∧ ∃ e base v, x.spec.writtenIn? (again ++ ws) name = some e ∧
        (x.s.argument x.sub base a e).2 = some v ∧ st.args.get? name = some v := by
    intro name hname
    obtain ⟨e, hfound⟩ := Option.isSome_iff_exists.1 hname
    obtain ⟨a, ha, rfl⟩ := OpSpec.parameter_of_writtenIn? hknown hname
    have hget := (hgiven a.name).trans hfound
    obtain ⟨base, hvalue, hexplicit, hproblems⟩ := hin.value hr ha
    obtain ⟨v, hv⟩ := Option.isSome_iff_exists.1
      (hin.accepts hparse hvars he ha hget (List.subset_nil.1 (hproblems e hget)))
    have haccepted : x.written? base a = some v := Option.bind_eq_some_iff.2 ⟨e, hget, hv⟩
    rw [hmakes.explicit, hmakes.args, hvalue, hexplicit, haccepted]
    exact ⟨rfl, a, ha, rfl, e, base, v, hfound, hv, rfl⟩
  have hexplicit : ∀ name ∈ st.explicit, (x.spec.writtenIn? (again ++ ws) name).isSome := by
    intro name hname
    rw [hmakes.explicit] at hname
    obtain ⟨a, ha, rfl⟩ := Surroundings.mem_explicit hname
    obtain ⟨base, -, hexplicit, -⟩ := hin.value hr ha
    obtain ⟨v, hv⟩ := Option.isSome_iff_exists.1 (hexplicit.1 hname)
    obtain ⟨e, hget, -⟩ := Option.bind_eq_some_iff.1 hv
    exact Option.isSome_iff_exists.2 ⟨e, (hgiven a.name).symm.trans hget⟩
  exact ⟨x, ws, again, hin, hmakes, htogether, hfits, hknown,
    fun name => ⟨hexplicit name, fun hname => (hwritten name hname).1⟩,
    fun name hname => (hwritten name (hexplicit name hname)).2⟩

/-- An operation that begins chains and takes two truth values, and one that mixes its input with
another chain. -/
def easel : Registry where
  ops := {
    specs := .ofList [("ink", { name := "ink", args := [{ name := "wet", type := .boolean },
        { name := "fast", type := .boolean }] }),
      ("mix", { name := "mix", args := [{ name := "tex", type := .surface }] })]
    starters := ["ink"] }

/-- A variable with the name of its operation, called and given for a surface. -/
def easelSource : Bytes := .ofString "search s let ink = ink(true) ink().mix(tex: ink).out(o0)"

def easelTokens : List Token :=
  let token (col : Nat) (kind : TokenKind) (word : String) : Token :=
    ⟨kind, Bytes.ofString word, ⟨1, col⟩⟩
  [token 1 .keyword "search", token 8 .identifier "s", token 10 .keyword "let",
    token 14 .identifier "ink", token 18 .assign "=", token 20 .identifier "ink",
    token 23 .lparen "(", token 24 .keyword "true", token 28 .rparen ")",
    token 30 .identifier "ink", token 33 .lparen "(", token 34 .rparen ")", token 35 .dot ".",
    token 36 .identifier "mix", token 39 .lparen "(", token 40 .identifier "tex",
    token 43 .colon ":", token 45 .identifier "ink", token 48 .rparen ")", token 49 .dot ".",
    token 50 .identifier "out", token 53 .lparen "(", token 54 .surface "o0", token 56 .rparen ")",
      token 57 .endOfInput ""]

def easelProgram : Program where
  search := ["s"]
  statements :=
    let ns := { resolved := true, search := ["s"] }
    let ink (col : Nat) (args : List Expr) : Call := { name := "ink", args, ns, pos := ⟨1, col⟩ }
    let mix : Call :=
      { name := "mix", kwargs := [⟨"tex", .ident "ink" ⟨1, 45⟩, ⟨1, 40⟩⟩], ns, pos := ⟨1, 36⟩ }
    [.bind "ink" (.call (ink 20 [.bool true ⟨1, 24⟩])) ⟨1, 10⟩,
      .run { calls := [ink 30 [], mix], out := some (.surface ⟨.output, 0⟩ ⟨1, 54⟩),
             pos := ⟨1, 30⟩ } ⟨1, 30⟩]
  vars := ["ink"]

def easelPlan : Plan where
  search := ["s"]
  steps :=
    let ns := { resolved := true, search := ["s"] }
    [{ op := "ink", args := .ofList [("wet", .boolean true), ("fast", .boolean false)],
       explicit := ["wet"], temp := 0,
        ns, pos := ⟨1, 30⟩ },
      { op := "ink", args := .ofList [("wet", .boolean true), ("fast", .boolean true)],
        explicit := ["wet", "fast"], temp := 1, ns, pos := ⟨1, 20⟩ },
      { op := "mix", args := .ofList [("tex", .ref ⟨.temp, 1⟩)], explicit := ["tex"],
        source := some 0, temp := 2, ns, out := some ⟨.output, 0⟩, pos := ⟨1, 36⟩ }]

theorem easel_parse : Program.parse {} easelSource = .ok easelProgram := by
  have hscan : Token.scan easelSource = .ok easelTokens := by
    rw [show easelSource = _ from Bytes.ofString_ofList _]
    decide +kernel
  have htokens : Program.ofTokens {} easelTokens = .ok easelProgram := by cbv
  have hboth : (Token.scan easelSource >>= Program.ofTokens {}) = .ok easelProgram := by
    rw [hscan]
    exact htokens
  rw [Program.parse, hboth]

/-- The argument that is written once counts twice where the variable is given for a surface. -/
theorem easel_written_again : easel.ops.Built ∧ Program.parse {} easelSource = .ok easelProgram ∧
    easelProgram.plan easel {} = .ok easelPlan ∧ easelPlan.diagnostics = [] ∧
    easelPlan.steps.map Step.explicit = [["wet"], ["wet", "fast"], ["tex"]] ∧
    ∀ st ∈ easelPlan.steps, ∃ (x : Site) (ws again : List Call),
    x.In easelProgram { registry := easel } [] ∧
      x.Makes st ∧ x.PutTogether easelProgram ws again ∧ x.HasArguments st (again ++ ws) := by
  have hink : ({} : Operations).register "ink" [{ name := "wet", type := .boolean },
      { name := "fast", type := .boolean }] = .ok _ := rfl
  have hmix : Operations.register { specs := .ofList [("ink", { name := "ink", args := [
      { name := "wet", type := .boolean }, { name := "fast", type := .boolean }] })] } "mix"
      [{ name := "tex", type := .surface }] = .ok _ := rfl
  have hbuilt : easel.ops.Built := .markStarters (.register (.register .empty hink) hmix) ["ink"]
  have hplan : easelProgram.plan easel {} = .ok easelPlan := rfl
  exact ⟨hbuilt, easel_parse, hplan, rfl, rfl, explicit_written hbuilt easel_parse hplan rfl⟩

end EffectChain
