import EffectChain.Proofs.Plan.FlagGate
import EffectChain.Proofs.Plan.Reread
import EffectChain.Proofs.Plan.Written

/-!
# EffectChain.Proofs.Plan.Relowered

The chains of a plan, written and lowered again.

The text of a chain is a phrase of calls, and lowering these gives the steps of the chain once
more, whatever is around them (`Grown.again`, by induction on how the steps grew).  A name
stands for the operation it is written for, with its namespace or without (`Printer.exists_writes`).
-/

namespace EffectChain

open EffectChain.Parser EffectChain.Lexer Emitted

/-! ## names -/

namespace Lexer

/-- Names that mean nothing by themselves, with points between them. -/
def IsPlainPath (s : String) : Prop :=
  ∃ names : List String, names ≠ [] ∧ ".".intercalate names = s ∧ ∀ n ∈ names,
    IsName n ∧ n ≠ "Math" ∧ n ≠ "out"

/-- A name holds no dot. -/
theorem IsName.undotted {n : String} (h : IsName n) : Undotted n := by
  intro hmem
  exact absurd (h.part _ hmem) (by decide)

end Lexer

theorem intercalate_concat (sep s : String) {ss : List String} (h : ss ≠ []) :
    sep.intercalate (ss ++ [s]) = sep.intercalate ss ++ sep ++ s := by
  induction ss with
  | nil => exact absurd rfl h
  | cons t ss ih =>
    cases ss with
    | nil =>
        rw [List.singleton_append, String.intercalate_cons_cons, String.intercalate_singleton,
          String.intercalate_singleton]
    | cons u ss =>
      rw [List.cons_append, List.cons_append, String.intercalate_cons_cons, ← List.cons_append,
        ih (by simp), String.intercalate_cons_cons]
      simp only [String.append_assoc]

namespace Surroundings

variable {r : Registry} {c : Call} {spec : OpSpec}

/-- The name of the operation that a call by a single name refers to. -/
def referred (r : Registry) (c : Call) : String :=
  if c.ns.explicit then c.qualifiedName
  else ((r.namespaces.resolveBare c.name c.ns.preferred).map Export.canonical).getD c.name

/-- A single name is looked up under what it refers to. -/
theorem resolve?_eq (hc : Undotted c.name) :
    resolve? r c = (r.ops.lookup? (referred r c)).map fun spec =>
      { spec with name := referred r c } := by
  cases hexplicit : c.ns.explicit with
  | true => rw [resolve?_explicit hexplicit, referred, if_pos hexplicit]
  | false =>
    have hqualified : c.qualifiedName = c.name := by simp [CallOf.qualifiedName, hexplicit]
    unfold resolve? Namespaces.resolve
    rw [Text.cutLast?_eq_none hc, referred, if_neg (by simp [hexplicit]),
      if_neg (by simp [hexplicit]), hqualified]
    rfl

/-- Calls that refer to the same name are calls of the same operation. -/
theorem resolve?_of_referred {c' : Call} (hc : Undotted c.name) (h : resolve? r c = some spec)
    (hc' : Undotted c'.name) (hsame : referred r c' = spec.name) : resolve? r c' = some spec := by
  rw [resolve?_eq hc] at h
  obtain ⟨spec₀, hlookup, rfl⟩ := Option.map_eq_some_iff.1 h
  have hname : referred r c' = referred r c := hsame
  rw [resolve?_eq hc', hname, hlookup, Option.map_some]

/-- A call of an operation without a namespace is found in none. -/
theorem resolveBare_eq_none (hn : Namespaces.Sound r.namespaces.records)
    (hspace : c.ns.explicit = true → c.ns.name ≠ "") (h : Undotted (referred r c))
    (preferred : List String) : r.namespaces.resolveBare (referred r c) preferred = none := by
  -- only a bare name that nothing was found for is a single one
  obtain ⟨hexplicit, hnone⟩ : c.ns.explicit = false ∧
      r.namespaces.resolveBare c.name c.ns.preferred = none := by
    cases hexplicit : c.ns.explicit with
    | true =>
      have hqualified : referred r c = c.ns.name ++ "." ++ c.name := by
        simp [referred, hexplicit, CallOf.qualifiedName, hspace hexplicit]
      rw [hqualified] at h
      exact absurd (by simp) h
    | false =>
      refine ⟨rfl, ?_⟩
      cases hbare : r.namespaces.resolveBare c.name c.ns.preferred with
      | some e =>
        have hvalid := hn.valid e (Namespaces.active_of_resolveBare hbare).1
        exact absurd (by simp [referred, hexplicit, hbare]) (Export.canonical_ne hvalid h)
      | none => rfl
  have hname : referred r c = c.name := by simp [referred, hexplicit, hnone]
  obtain ⟨-, hrecords⟩ := Option.or_eq_none_iff.1 hnone
  rw [hname]
  refine Option.or_eq_none_iff.2 ⟨List.findSome?_eq_none_iff.2 fun space _ => ?_, hrecords⟩
  cases hlookup : r.namespaces.lookup space c.name with
  | none => rfl
  | some e =>
    obtain ⟨hfind, hactive⟩ := Option.filter_eq_some_iff.1 hlookup
    have hmem : e ∈ r.namespaces.records.filter (·.name = c.name) :=
      List.mem_filter.2 ⟨List.mem_of_find?_eq_some hfind,
        by simpa using (Prod.mk.inj (Namespaces.key_of_lookup hlookup)).2⟩
    exact absurd hactive (List.find?_eq_none.1 hrecords e hmem)

end Surroundings

section

variable {k : Checker} {p : Plan} {c : Call} {spec : OpSpec} {names : List String} {space n : String}

namespace Printer

/-- The names are what is written for an operation, and a call by them is one of the operation. -/
structure Writes (k : Checker) (p : Plan) (spec : OpSpec) (names : List String) : Prop where
  ne : names ≠ []
  text : (k.printer p).opName spec.name = ".".intercalate names
  each : ∀ n ∈ names, IsName n
  head : names.head? ≠ some "Math" ∧ names.head? ≠ some "out"
  calls : ∀ A c', Called p.search names A c' → Surroundings.resolve? k.registry c' = some spec

/-- Names of a path are written for an operation if calls by them refer to it. -/
theorem Writes.of_referred (hname : Undotted c.name)
    (hcall : Surroundings.resolve? k.registry c = some spec)
    (hplain : ∀ n ∈ names, IsName n ∧ n ≠ "Math" ∧ n ≠ "out") (hne : names ≠ [])
    (htext : (k.printer p).opName spec.name = ".".intercalate names)
    (hrefers : ∀ A c', Called p.search names A c' →
      Surroundings.referred k.registry c' = spec.name) : Writes k p spec names where
  ne := hne
  text := htext
  each n hn := (hplain n hn).1
  head := ⟨fun h => (hplain _ (List.mem_of_mem_head? h)).2.1 rfl,
    fun h => (hplain _ (List.mem_of_mem_head? h)).2.2 rfl⟩
  calls A c' hc' := Surroundings.resolve?_of_referred hname hcall
    (hplain _ (List.mem_of_getLast? hc'.name)).1.undotted (hrefers A c' hc')

/-- A single name is no export, so a call by it refers to the operation of the name. -/
theorem referred_single (hn : Namespaces.Sound k.registry.namespaces.records)
    (hspace : c.ns.explicit = true → c.ns.name ≠ "")
    (hreferred : Surroundings.referred k.registry c = n) (hundotted : Undotted n)
    {A : List Expr × List Keyword → Prop} {c' : Call} (hc' : Called p.search [n] A c') :
    Surroundings.referred k.registry c' = n := by
  obtain ⟨hcname, hexplicit⟩ := hc'.single
  have hnone := Surroundings.resolveBare_eq_none hn hspace (hreferred ▸ hundotted) c'.ns.preferred
  rw [hreferred] at hnone
  simp [Surroundings.referred, hexplicit, hnone, hcname]

/-- The last name of an export that the search order leads to is written alone. -/
theorem referred_found (hundotted : Undotted n)
    (hfound : (k.registry.namespaces.resolve n (some p.search)).any (·.canonical = spec.name))
    {A : List Expr × List Keyword → Prop} {c' : Call} (hc' : Called p.search [n] A c') :
    Surroundings.referred k.registry c' = spec.name := by
  obtain ⟨hcname, hexplicit⟩ := hc'.single
  obtain ⟨s, hs, hns⟩ := hc'.ns
  have hpreferred : c'.ns.preferred = p.search := by
    rw [hns]
    change (s.namespaceRef []).preferred = _
    rw [hs.namespaceRef]
    rfl
  rw [Namespaces.resolve, Text.cutLast?_eq_none hundotted] at hfound
  obtain ⟨e, he, hcanonical⟩ := (Option.any_eq_true _ _).1 hfound
  have he' : k.registry.namespaces.resolveBare n p.search = some e := he
  simp [Surroundings.referred, hexplicit, hcname, hpreferred, he', of_decide_eq_true hcanonical]

/-- A call by a path with a namespace refers to the path. -/
theorem referred_path {init : List String} (hinit : init ≠ []) (hnames : ∀ m ∈ init, IsName m)
    {A : List Expr × List Keyword → Prop} {c' : Call} (hc' : Called p.search (init ++ [n]) A c') :
    Surroundings.referred k.registry c' = ".".intercalate init ++ "." ++ n := by
  have hcname : c'.name = n := by
    have hlast := hc'.name
    rw [List.getLast?_concat] at hlast
    exact (Option.some.inj hlast).symm
  obtain ⟨s, -, hns⟩ := hc'.ns
  rw [List.dropLast_concat] at hns
  obtain ⟨m, ms, rfl⟩ := List.exists_cons_of_ne_nil hinit
  obtain ⟨hexplicit, hspace⟩ : c'.ns.explicit = true ∧
      c'.ns.name = ".".intercalate (m :: ms) := by
    rw [hns]
    exact ⟨rfl, rfl⟩
  have hne : ".".intercalate (m :: ms) ≠ "" := by
    obtain ⟨rest, hrest⟩ := exists_intercalate_cons "." m ms
    obtain ⟨ch, cs, hm, -⟩ := (hnames m (by simp)).start
    intro hempty
    have hlist := congrArg String.toList (hempty.symm.trans hrest)
    simp [hm] at hlist
  simp [Surroundings.referred, CallOf.qualifiedName, hexplicit, hspace, hne, hcname]

/-- The name that is written for an operation is a path, and a call by it is one of the operation.
-/
theorem exists_writes (hn : Namespaces.Sound k.registry.namespaces.records)
    (hname : Undotted c.name) (hcall : Surroundings.resolve? k.registry c = some spec)
    (hspace : c.ns.explicit = true → c.ns.name ≠ "") (hpath : IsPlainPath spec.name) :
    ∃ names, Writes k p spec names := by
  obtain ⟨names, hne, hnames, hplain⟩ := hpath
  have hreferred : Surroundings.referred k.registry c = spec.name := by
    rw [Surroundings.resolve?_eq hname] at hcall
    obtain ⟨_, -, rfl⟩ := Option.map_eq_some_iff.1 hcall
    rfl
  obtain ⟨init, n, rfl⟩ := (List.eq_nil_or_concat' names).resolve_left hne
  have hlast : Undotted n := (hplain n (by simp)).1.undotted
  have halone : ∀ m ∈ [n], IsName m ∧ m ≠ "Math" ∧ m ≠ "out" := fun m hm =>
    hplain m (by simp [List.mem_singleton.1 hm])
  by_cases hinit : init = []
  · subst hinit
    have hop : spec.name = n := by rw [← hnames, List.nil_append, String.intercalate_singleton]
    refine ⟨[n], .of_referred hname hcall halone (by simp) ?_ fun A c' hc' => ?_⟩
    · rw [String.intercalate_singleton, opName, hop, Text.cutLast?_eq_none hlast]
    · rw [hop] at hreferred ⊢
      exact referred_single hn hspace hreferred hlast hc'
  · have hop : spec.name = ".".intercalate init ++ "." ++ n := by
      rw [← hnames, intercalate_concat _ _ hinit]
    have hcut : Text.cutLast? '.' spec.name = some (".".intercalate init, n) := by
      rw [hop]
      exact Text.cutLast?_append _ hlast
    have hwritten : (k.printer p).opName spec.name =
        if p.search.contains (".".intercalate init) &&
          (k.registry.namespaces.resolve n (some p.search)).any (·.canonical = spec.name) then n
        else spec.name := by
      rw [opName, hcut]
    split at hwritten
    · rename_i hfound
      rw [Bool.and_eq_true] at hfound
      exact ⟨[n], .of_referred hname hcall halone (by simp)
        (by rw [hwritten, String.intercalate_singleton])
        fun A c' hc' => referred_found hlast hfound.2 hc'⟩
    · refine ⟨init ++ [n], .of_referred hname hcall hplain hne (by rw [hwritten, hnames])
        fun A c' hc' => ?_⟩
      rw [hop]
      exact referred_path hinit (fun m hm => (hplain m (by simp [hm])).1) hc'

end Printer

end

/-! ## arguments -/

/-- The step once more: under other conditions, in other loops and somewhere else in a source. -/
def Step.Again (gs : List Dynamic) (r : Repeat) (st st' : Step) : Prop :=
  ∃ ns pos, st' = { st with guards := gs, repetition := r, ns, pos }

/-- Steps planned again keep their numbers. -/
theorem Step.map_temp_of_again {gs : List Dynamic} {r : Repeat} {steps steps' : List Step}
    (h : List.Forall₂ (Again gs r) steps steps') :
    steps'.map temp = steps.map temp := by
  induction h with
  | nil => rfl
  | cons hst _ ih =>
    obtain ⟨ns, pos, rfl⟩ := hst
    rw [List.map_cons, List.map_cons, ih]

variable {k : Checker} {p : Plan}

namespace Checker

/-- Arguments of other names stay as they are. -/
theorem fill_other {written : List (ArgSpec × Option Value)} {name : String}
    (h : name ∉ written.map (·.1.name)) (r : Table Value × List String) :
    (name ∈ (written.foldl k.fill r).2 ↔ name ∈ r.2) ∧
      (written.foldl k.fill r).1.get? name = r.1.get? name := by
  induction written generalizing r with
  | nil => simp
  | cons w written ih =>
    rw [List.map_cons, List.mem_cons, not_or] at h
    obtain ⟨hmem, hget⟩ := ih h.2 (k.fill r w)
    have hfill : (name ∈ (k.fill r w).2 ↔ name ∈ r.2) ∧ (k.fill r w).1.get? name =
        r.1.get? name := by
      unfold fill
      split
      · simp [h.1]
      · split <;> simp [h.1]
    rw [List.foldl_cons, hmem, hget]
    exact hfill

/-- The arguments that something is written for are explicit, and have it for a value. -/
theorem fill_written {written : List (ArgSpec × Option Value)}
    (hnodup : (written.map (·.1.name)).Nodup) (r : Table Value × List String)
    (hfresh : ∀ w ∈ written, w.1.name ∉ r.2) :
    ∀ w ∈ written, (w.1.name ∈ (written.foldl k.fill r).2 ↔ w.2.isSome = true) ∧
      ∀ v, w.2 = some v → (written.foldl k.fill r).1.get? w.1.name = some v := by
  induction written generalizing r with
  | nil => simp
  | cons w written ih =>
    obtain ⟨hw, hnodup⟩ := List.nodup_cons.1 hnodup
    obtain ⟨hfirst, hfresh⟩ := List.forall_mem_cons.1 hfresh
    rw [List.foldl_cons, List.forall_mem_cons]
    have hother : ∀ w' ∈ written, w'.1.name ≠ w.1.name := fun w' hw' heq =>
      hw (List.mem_map.2 ⟨w', hw', heq⟩)
    refine ⟨?_, ih hnodup _ fun w' hw' => ?_⟩
    · obtain ⟨hmem, hget⟩ := fill_other hw (k.fill r w)
      rw [hmem, hget]
      unfold fill
      cases hvalue : w.2 with
      | some v => simp
      | none => cases k.defaultValue w.1 <;> simp [hfirst]
    · unfold fill
      split
      · simpa [hother w' hw'] using hfresh w' hw'
      · split <;> exact hfresh w' hw'

end Checker

namespace Printer

/-- What is written for an argument, under its name. -/
def itemText? (u : Printer) (chain : Nat → String) (w : ArgSpec × Option Value) : Option String :=
  w.2.map fun v => w.1.name ++ ": " ++ u.valueText chain w.1 v

/-- What the step is written with can be read: its names are plain, and what is written for its
values is the values. -/
structure SpellsStep (u : Printer) (st : Step) : Prop where
  op : IsPlainPath st.op
  space : st.ns.explicit = true → st.ns.name ≠ ""
  names : ∀ name ∈ st.explicit, IsName name
  values : ∀ spec, u.registry.ops.lookup? st.op = some spec → ∀ a ∈ spec.args,
    a.name ∈ st.explicit →
    ∀ v, st.args.get? a.name = some v → u.Spells a v

end Printer

section

variable {gs : List Dynamic} {r : Repeat} {spec : OpSpec} {written : List (ArgSpec × Option Value)}
    {temp : Nat}
  {source : Option Nat} {out : Option Surface} {st : Step}

namespace Step.Calls

/-- The operation of a step is registered, with the same arguments. -/
theorem lookup (h : st.Calls k gs r spec written temp source out) :
    ∃ spec', k.registry.ops.lookup? st.op = some spec' ∧ spec'.args = spec.args := by
  obtain ⟨c, -, hresolve, -⟩ := h.call
  unfold Surroundings.resolve? at hresolve
  obtain ⟨spec', hlookup, rfl⟩ := Option.map_eq_some_iff.1 hresolve
  exact ⟨spec', h.op ▸ hlookup, rfl⟩

/-- The arguments of a step are those of its operation, each once. -/
theorem names (hops : k.registry.ops.Built) (h : st.Calls k gs r spec written temp source out) :
    written.map (·.1.name) = spec.args.map (·.name) ∧ (written.map (·.1.name)).Nodup := by
  obtain ⟨spec', hlookup, hargs⟩ := h.lookup
  have hnames : written.map (·.1.name) = spec.args.map (·.name) := by
    rw [← h.specs, List.map_map]; rfl
  refine ⟨hnames, ?_⟩
  rw [hnames, ← hargs]
  exact hops.nodup hlookup

/-- What is written for the arguments of a step are its explicit arguments. -/
theorem explicit (hops : k.registry.ops.Built) (h : st.Calls k gs r spec written temp source out) :
    ∀ w ∈ written, (w.1.name ∈ st.explicit ↔ w.2.isSome = true) ∧ ∀ v, w.2 = some v →
    st.args.get? w.1.name = some v := by
  have hfill := Checker.fill_written (k := k) (h.names hops).2 ({}, []) (by simp)
  rwa [h.values] at hfill

/-- A call is written with the name of its operation and its explicit arguments. -/
theorem callText_eq (hops : k.registry.ops.Built) (h : st.Calls k gs r spec written temp source out)
    (chain : Nat → String) :
    (k.printer p).callText chain st = (k.printer p).opName spec.name ++
      ("(" ++ (", ".intercalate (written.filterMap ((k.printer p).itemText? chain)) ++ ")")) := by
  obtain ⟨spec', hlookup, hargs⟩ := h.lookup
  have hspecs : (k.printer p).argSpecs st = written.map Prod.fst := by
    unfold Printer.argSpecs
    rw [hlookup, h.specs, ← hargs]
  have hitems : (written.map Prod.fst).filterMap ((k.printer p).argText? chain st) =
      written.filterMap ((k.printer p).itemText? chain) := by
    rw [List.filterMap_map]
    refine List.filterMap_congr fun w hw => ?_
    obtain ⟨hexplicit, hvalue⟩ := h.explicit hops w hw
    change (if st.explicit.contains w.1.name then _ else none) = _
    cases hw₂ : w.2 with
    | none => rw [if_neg (by simpa [hw₂] using hexplicit), Printer.itemText?, hw₂, Option.map_none]
    | some v =>
      rw [if_pos (by simpa [hw₂] using hexplicit), hvalue v hw₂, Printer.itemText?, hw₂,
        Option.map_some]
  rw [Printer.callText, hspecs, hitems, h.op]
  simp only [String.append_assoc]

end Step.Calls

end

/-! ### values once more -/

namespace Expr

theorem size_le_sizeKeywords {kws : List Keyword} {kw : Keyword} (h : kw ∈ kws) :
    kw.value.size ≤ sizeKeywords kws := by
  induction kws with
  | nil => cases h
  | cons kw' kws ih =>
    rw [sizeKeywords]
    rcases List.mem_cons.1 h with rfl | h
    · exact Nat.le_add_right _ _
    · exact (ih h).trans (Nat.le_add_left _ _)

theorem size_le_sizeCalls {cs : List Call} {c : Call} (hc : c ∈ cs) {kw : Keyword}
    (hkw : kw ∈ c.kwargs) :
    kw.value.size ≤ sizeCalls cs := by
  induction cs with
  | nil => cases hc
  | cons c' cs ih =>
    rw [sizeCalls]
    rcases List.mem_cons.1 hc with rfl | hc
    · have := size_le_sizeKeywords hkw
      omega
    · have := ih hc
      omega

/-- A chain of calls is larger than what is written in them. -/
theorem Chains.exists_asChain? {cs : List Call} {out : Option Expr} {e : Expr}
    (h : e.Chains cs out) :
    ∃ pos, e.asChain? = some { calls := cs, out, pos } ∧ ∀ c ∈ cs, ∀ kw ∈ c.kwargs,
    kw.value.size < e.size := by
  rcases h with ⟨c, rfl, rfl, rfl⟩ | ⟨-, pos, rfl⟩
  · refine ⟨c.pos, rfl, fun c' hc' kw hkw => ?_⟩
    obtain rfl := List.mem_singleton.1 hc'
    have := size_le_sizeKeywords hkw
    rw [size]
    omega
  · refine ⟨pos, rfl, fun c hc kw hkw => ?_⟩
    have := size_le_sizeCalls hc hkw
    rw [size]
    omega

/-- The expression is the value of the argument once more, and brings the steps of its chain with
it. -/
def Brings (k : Checker) (a : ArgSpec) (v : Value) (base : Nat) (own : List Step) (e : Expr) :
    Prop :=
  ∀ (s : Surroundings) (depth : Nat), s.checker = k → s.vars = {} → e.size ≤ depth →
    ∃ own', s.argument (s.subchain depth) base a e = ({ steps := own' }, some v) ∧
      List.Forall₂ (Step.Again s.guards {}) own own'

/-- An expression that stands for a value brings no steps of its own. -/
theorem Stands.brings {a : ArgSpec} {v : Value} {e : Expr} (h : e.Stands k a v) (base : Nat) :
    e.Brings k a v base [] :=
  fun s depth hs hvars _ => ⟨[], h s (s.subchain depth) base hs hvars, .nil⟩

end Expr

namespace Surroundings

variable {s : Surroundings} {sub : LowerChain} {base : Nat} {given : Table Expr}
    {steps own : List Step} {a : ArgSpec}
  {r : Table Value × List String}

/-- A parameter that is not given takes its default. -/
theorem take_none (h : given.get? a.name = none) :
    Arguments.take s sub base given ⟨{ steps }, r.1, r.2⟩ a =
    ⟨{ steps }, (s.checker.fill r (a, none)).1, (s.checker.fill r (a, none)).2⟩ := by
  unfold Arguments.take Checker.fill
  rw [h]
  cases s.checker.defaultValue a <;> rfl

/-- A parameter that is given takes its value, with the steps that come with it. -/
theorem take_some {e : Expr} {v : Value} (h : given.get? a.name = some e)
    (harg : s.argument sub (base + steps.length) a e = ({ steps := own }, some v)) :
    Arguments.take s sub base given ⟨{ steps }, r.1, r.2⟩ a =
      ⟨{ steps := steps ++ own }, (s.checker.fill r (a, some v)).1,
        (s.checker.fill r (a, some v)).2⟩ := by
  unfold Arguments.take
  rw [h]
  dsimp only
  rw [harg]
  rfl

/-- Keyword arguments that are all known are the arguments of a call. -/
theorem keywords_known {k : Checker} {canonical : String} {t : Table Expr} {kws : List Keyword}
    {spec : OpSpec} (h : ∀ kw ∈ kws, (spec.arg? kw.name).isSome) :
    keywords k spec canonical t kws = (kws.foldl (fun t kw => t.insert kw.name kw.value) t,
      []) := by
  induction kws generalizing t with
  | nil => rfl
  | cons kw kws ih =>
    obtain ⟨hkw, hkws⟩ := List.forall_mem_cons.1 h
    rw [keywords, if_pos hkw, ih hkws, List.foldl_cons]

end Surroundings

/-- The items are what is written for the arguments, and are lowered to the same once more. -/
structure ArgsAgain (k : Checker) (p : Plan) (written : List (ArgSpec × Option Value)) (base : Nat)
    (steps : List Step) (items : List Item) : Prop where
  names : items.map Item.name = (written.filter (·.2.isSome)).map (·.1.name)
  text : ∀ depth, base + steps.length ≤ depth →
    written.filterMap ((k.printer p).itemText? ((k.printer p).chainText depth)) =
      items.map Item.written
  phrase : ∀ it ∈ items, Phrase EndsArgument it.text (Denotes p.search it.means)
  again : ∀ (s : Surroundings) (depth : Nat) (kws : List Keyword), s.checker = k → s.vars = {} →
    (∀ kw ∈ kws, kw.value.size ≤ depth) → List.Forall₂ Item.Read items kws → ∀ given : Table Expr,
    (∀ w ∈ written, given.get? w.1.name = (kws.find? (·.name = w.1.name)).map (·.value)) →
    ∀ (before : Nat) (past : List Step) (r : Table Value × List String),
      before + past.length = base →
    ∃ steps', List.Forall₂ (Step.Again s.guards {}) steps steps' ∧
      (written.map Prod.fst).foldl (Surroundings.Arguments.take s (s.subchain depth) before given)
        ⟨{ steps := past }, r.1, r.2⟩ =
        ⟨{ steps := past ++ steps' }, (written.foldl k.fill r).1, (written.foldl k.fill r).2⟩

namespace ArgsAgain

open Surroundings

variable {a : ArgSpec} {v : Value} {written : List (ArgSpec × Option Value)} {base : Nat}
    {own steps : List Step}
  {items : List Item}

theorem nil : ArgsAgain k p [] base [] [] where
  names := rfl
  text _ _ := rfl
  phrase := nofun
  again := by
    rintro s depth kws hs hvars - - given - before past r -
    exact ⟨[], .nil, by rw [List.append_nil]; rfl⟩

/-- No argument of a name that is not written was read. -/
theorem notMem_names (h : ArgsAgain k p written base steps items) {name : String}
    (hname : name ∉ written.map (·.1.name)) {kws : List Keyword}
    (hkws : List.Forall₂ Item.Read items kws) : name ∉ kws.map (·.name) := by
  rw [Item.map_name_of_read hkws, h.names]
  exact fun hmem => hname ((List.filter_sublist.map _).subset hmem)

/-- An argument that is not written takes its default once more. -/
theorem omitted (h : ArgsAgain k p written base steps items)
    (ha : a.name ∉ written.map (·.1.name)) :
    ArgsAgain k p ((a, none) :: written) base steps items where
  names := h.names
  text := h.text
  phrase := h.phrase
  again := by
    intro s depth kws hs hvars hsize hkws given hgiven before past r hbase
    obtain ⟨hfirst, hrest⟩ := List.forall_mem_cons.1 hgiven
    rw [find?_keyword_eq_none (h.notMem_names ha hkws), Option.map_none] at hfirst
    obtain ⟨steps', hagain, hfold⟩ :=
      h.again s depth kws hs hvars hsize hkws given hrest before past (k.fill r (a, none)) hbase
    refine ⟨steps', hagain, ?_⟩
    rw [List.map_cons, List.foldl_cons, take_none hfirst, hs]
    exact hfold

/-- An argument that is written takes the value that its text is read as. -/
theorem cons {text : String}
    (hvalue : Phrase EndsArgument text (Denotes p.search (Expr.Brings k a v base own)))
    (htext : ∀ depth, base + own.length ≤ depth →
      (k.printer p).valueText ((k.printer p).chainText depth) a v = text)
    (h : ArgsAgain k p written (base + own.length) steps items)
    (ha : a.name ∉ written.map (·.1.name)) :
    ArgsAgain k p ((a, some v) :: written) base (own ++ steps)
      (⟨a.name, text, Expr.Brings k a v base own⟩ :: items) where
  names := by
    rw [List.map_cons, h.names]
    rfl
  text depth hdepth := by
    rw [List.length_append] at hdepth
    rw [List.filterMap_cons, Printer.itemText?, Option.map_some, htext depth (by omega),
      List.map_cons, h.text depth (by omega)]
    rfl
  phrase := List.forall_mem_cons.2 ⟨hvalue, h.phrase⟩
  again := by
    rintro s depth _ hs hvars hsize (_ | ⟨hkw, hkws⟩) given hgiven before past r hbase
    rename_i kw kws
    obtain ⟨hkwSize, hsize⟩ := List.forall_mem_cons.1 hsize
    obtain ⟨hfirst, hrest⟩ := List.forall_mem_cons.1 hgiven
    have hname : kw.name = a.name := hkw.name
    rw [List.find?_cons_of_pos (by simpa using hname)] at hfirst
    obtain ⟨own', harg, hown⟩ := hkw.means s depth hs hvars hkwSize
    have hrest' : ∀ w ∈ written,
        given.get? w.1.name = (kws.find? (·.name = w.1.name)).map (·.value) := by
      intro w hw
      have hne : ¬ kw.name = w.1.name :=
        fun heq => ha (List.mem_map.2 ⟨w, hw, by rw [← heq, hname]⟩)
      rw [hrest w hw, List.find?_cons_of_neg (by simpa using hne)]
    obtain ⟨steps', hagain, hfold⟩ :=
      h.again s depth kws hs hvars hsize hkws given hrest' before (past ++ own')
      (k.fill r (a, some v)) (by rw [List.length_append, ← hown.length_eq]; omega)
    refine ⟨own' ++ steps', List.rel_append hown hagain, ?_⟩
    rw [List.map_cons, List.foldl_cons, take_some hfirst (hbase ▸ harg), hs, ← List.append_assoc]
    exact hfold

end ArgsAgain

/-! ## chains -/

/-- The calls are lowered to the steps once more, the last one without what it is written to. -/
def Regrows (k : Checker) (op : String) (base : Nat) (init : List Step) (st : Step)
    (cs : List Call) : Prop :=
  ∀ (s : Surroundings) (depth : Nat), s.checker = k → s.vars = {} →
    (∀ c ∈ cs, ∀ kw ∈ c.kwargs, kw.value.size ≤ depth) →
    ∃ init' st', List.Forall₂ (Step.Again s.guards {}) init init' ∧
      Step.Again s.guards {} { st with out := none } st' ∧
      cs.foldl (Surroundings.Progress.next s (s.subchain depth) base) {} =
        { out := { steps := init' ++ [st'] }, last := some st.temp,
          starter := if k.registry.ops.isStarter op then some op else none, begun := true }

/-- The steps of a chain end in the step; the text is the calls of the chain, which are lowered to
the same once more. -/
structure ChainAgain (k : Checker) (p : Plan) (op : String) (base : Nat) (init : List Step)
    (st : Step) (calls : List Step) (text : String) : Prop where
  temp : st.temp = base + init.length
  backwards : ∀ limit, st.temp < limit → Printer.backwards p limit st.temp = calls.reverse
  last : calls.getLast? = some st
  spelled : ∀ depth, st.temp ≤ depth →
    ".".intercalate (calls.map ((k.printer p).callText ((k.printer p).chainText depth))) = text
  phrase : Phrase EndsCall text (Begins p.search (Regrows k op base init st))

/-- What a chain that ends in the step is written to. -/
def Step.outText (st : Step) : String :=
  match st.out with
  | some o => ".out(" ++ o.name ++ ")"
  | none => ""

section

variable {gs : List Dynamic} {r : Repeat} {spec : OpSpec} {written : List (ArgSpec × Option Value)}
    {source : Option Nat}
  {out : Option Surface} {st : Step} {base : Nat} {own : List Step} {items : List Item}

open Surroundings

/-- A call of the operation with the items is lowered to the step once more. -/
theorem Step.Calls.again (hops : k.registry.ops.Built)
    (h : st.Calls k gs r spec written (base + own.length) source out)
    (hargs : ArgsAgain k p written base own items) {names : List String} {c : Call}
    (hc : Called p.search names (fun r => r.1 = [] ∧ List.Forall₂ Item.Read items r.2) c)
    (s : Surroundings) (depth : Nat) (hs : s.checker = k) (hvars : s.vars = {})
    (hsize : ∀ kw ∈ c.kwargs, kw.value.size ≤ depth) :
    ∃ own' st', List.Forall₂ (Step.Again s.guards {}) own own' ∧
    Step.Again s.guards {} { st with out := none } st' ∧
      s.call (s.subchain depth) base c spec source = ({ steps := own' ++ [st'] }, st.temp) := by
  obtain ⟨hnone, hread⟩ := hc.args
  obtain ⟨hspecs, hnodup⟩ := h.names hops
  have hnames : c.kwargs.map (·.name) = items.map Item.name := Item.map_name_of_read hread
  have hsub : (c.kwargs.map (·.name)).Sublist (spec.args.map (·.name)) := by
    rw [hnames, hargs.names, ← hspecs]
    exact List.filter_sublist.map _
  have hknown : ∀ kw ∈ c.kwargs, (spec.arg? kw.name).isSome := by
    intro kw hkw
    obtain ⟨a, ha, hname⟩ := List.mem_map.1 (hsub.subset (List.mem_map_of_mem hkw))
    exact List.find?_isSome.2 ⟨a, ha, by simpa using hname⟩
  have hpositional : positional spec.name {} spec.args c.args = ({}, []) := by
    have hargs : c.args = [] := hnone
    rw [hargs]
    cases spec.args <;> rfl
  have hgiven : ∀ w ∈ written,
      (s.given c spec).get? w.1.name = (c.kwargs.find? (·.name = w.1.name)).map (·.value) := by
    intro w _
    rw [given, hpositional, keywords_known hknown,
      get?_foldl_insert_keywords (hsub.nodup (hspecs ▸ hnodup))]
    simp
  obtain ⟨own', hown, hfold⟩ :=
    hargs.again s depth c.kwargs hs hvars hsize hread (s.given c spec) hgiven base [] ({}, []) rfl
  have harguments : s.arguments (s.subchain depth) base c spec =
      ⟨{ steps := own' }, st.args, st.explicit⟩ := by
    rw [Surroundings.arguments, hpositional, keywords_known hknown, ← h.specs]
    rw [h.values] at hfold
    exact hfold
  refine ⟨own', s.stepOf (s.subchain depth) base c spec source, hown, ⟨c.ns, c.pos, ?_⟩, ?_⟩
  · rw [stepOf, harguments]
    dsimp only
    rw [← h.op, ← h.source, ← hown.length_eq, ← h.temp]
  · rw [call_eq, harguments, stepOf, harguments]
    dsimp only
    rw [← hown.length_eq, ← h.temp]
    rfl

/-- The text of a call. -/
theorem Step.Calls.phrase (hops : k.registry.ops.Built)
    (hn : Namespaces.Sound k.registry.namespaces.records)
    (h : st.Calls k gs r spec written (base + own.length) source out)
    (hspells : (k.printer p).SpellsStep st) (hargs : ArgsAgain k p written base own items) :
    ∃ text, (∀ depth, st.temp ≤ depth →
      (k.printer p).callText ((k.printer p).chainText depth) st = text) ∧
      (∀ after, startsWith isDigit (Bytes.ofString text ++ after) = false) ∧
      Phrase EndsCall text (IsCall p.search fun c => Surroundings.resolve? k.registry c =
        some spec ∧
        ∃ names, Called p.search names (fun r => r.1 = [] ∧ List.Forall₂ Item.Read items r.2)
          c) := by
  obtain ⟨c, hname, hresolve, hns⟩ := h.call
  obtain ⟨names, hne, hop, hnames, hhead, hcalled⟩ : ∃ names, Printer.Writes k p spec names :=
    Printer.exists_writes hn hname hresolve (hns ▸ hspells.space) (h.op ▸ hspells.op)
  have hitems : ∀ it ∈ items, IsName it.name := by
    intro it hit
    have hmem : it.name ∈ (written.filter (·.2.isSome)).map (·.1.name) :=
      hargs.names ▸ List.mem_map_of_mem hit
    obtain ⟨w, hw, hwname⟩ := List.mem_map.1 hmem
    obtain ⟨hw, hsome⟩ := List.mem_filter.1 hw
    exact hwname ▸ hspells.names _ (((h.explicit hops w hw).1).2 hsome)
  have hnodup : (items.map Item.name).Nodup := by
    rw [hargs.names]
    exact (List.filter_sublist.map _).nodup (h.names hops).2
  have hphrase := phrase_call hne hnames hhead
    ((phrase_items hitems hnodup hargs.phrase).mono (fun _ => id) fun ts => ReadsItems.readsArgs)
      (starts_items hitems)
  refine ⟨_, fun depth hdepth => ?_, fun after => ?_, hphrase.mono (fun _ => id) ?_⟩
  · rw [h.callText_eq hops, hop, hargs.text depth (h.temp ▸ hdepth)]
  · rw [Bytes.ofString_append, List.append_assoc]
    exact startsWith_path hne hnames _
  · rintro _ ⟨t, more, rfl, hkind, hmath, hout, hcall⟩
    refine ⟨t, more, rfl, hkind, hmath, hout, fun s rest hs => ?_⟩
    obtain ⟨hparen, hgives⟩ := hcall s rest hs
    exact ⟨hparen, hgives.mono fun c hc => ⟨hcalled _ c hc, names, hc⟩⟩

namespace ChainAgain

theorem first (hops : k.registry.ops.Built) (hn : Namespaces.Sound k.registry.namespaces.records)
    (h : st.Calls k gs r spec written (base + own.length) none out)
    (hst : p.steps[st.temp]? = some st) (hspells : (k.printer p).SpellsStep st)
    (hargs : ArgsAgain k p written base own items)
    (hstarts : k.registry.ops.isStarter spec.name = true ∨
      k.registry.ops.isPassthrough spec.name = true) :
    ∃ calls text, ChainAgain k p spec.name base own st calls text := by
  obtain ⟨text, htext, -, hphrase⟩ := h.phrase hops hn hspells hargs
  refine ⟨[st], text, h.temp, fun limit hlimit => ?_, rfl, fun depth hdepth => ?_, ?_⟩
  · obtain ⟨limit, rfl⟩ := Nat.exists_eq_add_one_of_ne_zero (by omega : limit ≠ 0)
    rw [Printer.backwards, hst]
    simp only [h.source]
    rfl
  · rw [List.map_singleton, String.intercalate_singleton, htext depth hdepth]
  · refine hphrase.mono (fun _ => id) fun ts hts => (begins_call hts).mono ?_
    rintro _ ⟨c, rfl, hresolve, names, hc⟩ s depth rfl hvars hsize
    obtain ⟨own', st', hown, hagain, hcall⟩ :=
      h.again hops hargs hc s depth rfl hvars (hsize c (by simp))
    refine ⟨own', st', hown, hagain, ?_⟩
    have hinput : (!s.checker.registry.ops.isStarter spec.name &&
        !s.checker.registry.ops.isPassthrough spec.name) = false := by
      rcases hstarts with h | h <;> simp [h]
    have hcall' : s.call (s.subchain depth) (base + ([] : List Step).length) c spec none = _ :=
      hcall
    simp only [List.foldl_cons, List.foldl_nil, Progress.next, hresolve, Option.isNone_none,
      Option.isSome_none, Bool.true_and, Bool.false_and, hinput, hcall']
    rfl

theorem next {op : String} {init : List Step} {st₀ : Step} {calls : List Step} {text : String}
    (hops : k.registry.ops.Built) (hn : Namespaces.Sound k.registry.namespaces.records)
    (hbefore : ChainAgain k p op base init st₀ calls text) (hout : st₀.out = none)
    (h : st.Calls k gs r spec written (base + init.length + 1 + own.length) (some st₀.temp) out)
    (hst : p.steps[st.temp]? = some st) (hspells : (k.printer p).SpellsStep st)
    (hargs : ArgsAgain k p written (base + init.length + 1) own items)
    (hgoesOn : k.registry.ops.isStarter spec.name = false) :
    ∃ text', ChainAgain k p op base (init ++ [st₀] ++ own) st (calls ++ [st]) text' := by
  obtain ⟨text', htext, hstart, hphrase⟩ := h.phrase hops hn hspells hargs
  have htemp := hbefore.temp
  have hne : calls ≠ [] := by
    rintro rfl
    exact absurd hbefore.last (by simp)
  refine ⟨text ++ ("." ++ text'), by rw [h.temp]; simp; omega, fun limit hlimit => ?_, by simp,
    fun depth hdepth => ?_, ?_⟩
  · obtain ⟨limit, rfl⟩ := Nat.exists_eq_add_one_of_ne_zero (by omega : limit ≠ 0)
    have hlt : st₀.temp < limit := by
      rw [h.temp] at hlimit
      omega
    rw [Printer.backwards, hst]
    simp only [h.source, hbefore.backwards limit hlt, List.reverse_append]
    rfl
  · rw [List.map_append, List.map_singleton, intercalate_concat _ _ (by simpa using hne),
      hbefore.spelled depth (by rw [h.temp] at hdepth; omega), htext depth hdepth,
        String.append_assoc]
  · have hdot : Phrase EndsCall ("." ++ text') _ := Phrase.dot.append hphrase fun after _ =>
      hstart after
    have hends : ∀ after, EndsCall (Bytes.ofString ("." ++ text') ++ after) := fun after => by
      rw [Bytes.ofString_append]
      exact .cons (by decide) _
    refine (hbefore.phrase.append hdot fun after _ => hends after).mono (fun _ => id) ?_
    · rintro _ ⟨us, _, rfl, hus, ⟨vs, ws, rfl, hvs, hws⟩⟩
      refine (begins_next hus hvs hws).mono ?_
      rintro _ ⟨cs, c, rfl, hcs, hresolve, names, hc⟩ s depth rfl hvars hsize
      obtain ⟨init', st₀', hinit, hst₀, hfold⟩ := hcs s depth rfl hvars fun c hc =>
        hsize c (by simp [hc])
      obtain ⟨own', st', hown, hagain, hcall⟩ :=
        h.again hops hargs hc s depth rfl hvars (hsize c (by simp))
      refine ⟨init' ++ [st₀'] ++ own', st', ?_, hagain, ?_⟩
      · exact List.rel_append (List.rel_append hinit (.cons (by rwa [← hout] at hst₀) .nil)) hown
      · have hlength : base + (init' ++ [st₀']).length = base + init.length + 1 := by
          rw [List.length_append, hinit.length_eq]
          rfl
        have hsteps : ({ steps := init' ++ [st₀'] } : Emitted) ++ { steps := own' ++ [st'] } =
            { steps := init' ++ [st₀'] ++ own' ++ [st'] } := by
          rw [List.append_assoc (init' ++ [st₀'])]
          rfl
        rw [List.foldl_append, hfold, List.foldl_cons, List.foldl_nil]
        simp only [Progress.next, hresolve, Option.isNone_some, Option.isSome_some, Bool.true_and,
          Bool.false_and, hgoesOn, hlength, hcall, hsteps]
        rfl

/-- The text of a chain and of what it is written to. -/
theorem chainText_eq {op : String} {init calls : List Step} {text : String}
    (h : ChainAgain k p op base init st calls text) (hst : p.steps[st.temp]? = some st)
    {depth : Nat} (hdepth : st.temp < depth) :
    (k.printer p).chainText depth st.temp = text ++ st.outText := by
  obtain ⟨depth, rfl⟩ := Nat.exists_eq_add_one_of_ne_zero (by omega : depth ≠ 0)
  obtain ⟨hlt, -⟩ := List.getElem?_eq_some_iff.1 hst
  have hback : Printer.backwards (k.printer p).plan ((k.printer p).plan.steps.length + 1) st.temp =
      calls.reverse :=
    h.backwards _ (by change st.temp < p.steps.length + 1; omega)
  have hhead : calls.reverse.head? = some st := by rw [List.head?_reverse, h.last]
  rw [Printer.chainText, hback]
  rw [List.reverse_reverse, h.spelled depth (by omega), hhead]
  rfl

/-- A chain as it is written is an expression, whose calls are lowered to the steps once more. -/
theorem phrase_chain {op : String} {init calls : List Step} {text : String}
    (h : ChainAgain k p op base init st calls text) (hnamed : ∀ o ∈ st.out, o.Named) :
    Phrase EndsCall (text ++ st.outText) fun ts =>
      (∃ t more, ts = t :: more ∧ t.kind = .identifier) ∧
      Denotes p.search (fun e =>
        ∃ cs pos, Regrows k op base init st cs ∧ Expr.Chains cs (st.out.map (.surface · pos)) e)
          ts := by
  cases hout : st.out with
  | none =>
    have htext : st.outText = "" := by rw [Step.outText, hout]
    rw [htext, String.append_empty]
    exact h.phrase.mono (fun _ => id) fun ts hts =>
      ⟨hts.start, hts.reads.mono fun e ⟨cs, hcs, he⟩ => ⟨cs, {}, hcs, he⟩⟩
  | some o =>
    have htext : st.outText = ".out(" ++ o.name ++ ")" := by rw [Step.outText, hout]
    rw [htext]
    refine (h.phrase.append (phrase_out (hnamed o hout)) fun after _ => ?_).mono (fun _ => id) ?_
    · rw [Bytes.ofString_append, Bytes.ofString_append]
      exact .cons (by decide) _
    · rintro _ ⟨ts, us, rfl, hts, hus⟩
      obtain ⟨t, more, hstart, hkind⟩ := hts.start
      exact ⟨⟨t, more ++ us, by rw [hstart, List.cons_append], hkind⟩,
        (hts.readsOut hus).mono fun e ⟨cs, pos, hcs, he⟩ => ⟨cs, pos, hcs, he⟩⟩

end ChainAgain

theorem Emitted.append_notes_nil (a : Emitted) : a ++ notes [] = a := by
  change Emitted.append _ _ = _
  simp [Emitted.append]

/-- Without variables a chain stands for its calls. -/
theorem Bindings.expandChain_empty {ch : Chain} (h : ch.base = none) :
    Bindings.expandChain {} ch = (ch.calls, []) := by
  have hcall : ∀ c : Call, Bindings.expandCall {} c = ([c], []) := fun c => by
    unfold expandCall
    split <;> rfl
  have hbase : Bindings.expandBase {} ch = ([], []) := by
    unfold expandBase
    rw [h]
  rw [expandChain_eq, hbase]
  simp [hcall]

/-- Lowering a chain of the calls gives the steps once more. -/
theorem Regrows.lowers {op : String} {init : List Step} {cs : List Call}
    (h : Regrows k op base init st cs) (hinit : ∀ st' ∈ init, st'.temp ≠ st.temp)
    (hout : ∀ o ∈ st.out, o.Writable) {s : Surroundings} {depth : Nat} (hs : s.checker = k)
    (hvars : s.vars = {}) (hsize : ∀ c ∈ cs, ∀ kw ∈ c.kwargs, kw.value.size ≤ depth)
    {isArgument : Bool}
    (harg : isArgument = true ∨ (st.out = none → k.registry.ops.isStarter op = false))
    (pos pos' : Pos) :
    ∃ steps', List.Forall₂ (Step.Again s.guards {}) (init ++ [st]) steps' ∧
      s.chainWith (s.subchain depth) isArgument base
        { calls := cs, out := st.out.map (.surface · pos), pos := pos' } =
        ({ steps := steps' }, some st.temp) := by
  obtain ⟨init', st', hagain, ⟨ns, pos'', hst'⟩, hfold⟩ := h s depth hs hvars hsize
  have hcalls : cs.foldl (Progress.next s (s.subchain depth) base) { out := notes [] } = _ := hfold
  unfold chainWith
  rw [hvars, Bindings.expandChain_empty rfl]
  dsimp only
  rw [hcalls]
  cases ho : st.out with
  | none =>
    refine ⟨init' ++ [st'], List.rel_append hagain (.cons ⟨ns, pos'', ?_⟩ .nil), ?_⟩
    · rw [hst', ← ho]
    · dsimp only [Option.map_none]
      cases hstarter : k.registry.ops.isStarter op with
      | false => rfl
      | true =>
        obtain rfl : isArgument = true := harg.resolve_right fun h => by simp [h ho] at hstarter
        rfl
  | some o =>
    have htemp : st'.temp = st.temp := by rw [hst']
    have hkept : init'.map (fun x => if x.temp = st.temp then { x with out := some o } else x) =
        init' := by
      refine (List.map_congr_left fun x hx => ?_).trans (List.map_id init')
      obtain ⟨y, hy, htemp⟩ :=
        List.mem_map.1 (Step.map_temp_of_again hagain ▸ List.mem_map_of_mem hx)
      rw [if_neg (htemp ▸ hinit y hy), id]
    refine ⟨init' ++ [{ st' with out := some o }],
      List.rel_append hagain (.cons ⟨ns, pos'', ?_⟩ .nil), ?_⟩
    · rw [hst', ← ho]
    · have hwritable : (o.kind = .output || o.kind = .feedback) =
        true := by simpa [Surface.Writable] using hout o ho
      have hset : setOut st.temp o (init' ++ [st']) = init' ++ [{ st' with out := some o }] := by
        rw [setOut, List.map_append, hkept, List.map_singleton, if_pos htemp]
      have htarget : Surroundings.outTarget {} (.surface o pos) = (some o, []) := by
        rw [Surroundings.outTarget, Bindings.deref_empty]
        dsimp only
        rw [if_pos hwritable]
        rfl
      dsimp only [Option.map_some]
      rw [htarget]
      dsimp only
      rw [hset, Emitted.append_notes_nil]

/-- The expression of a chain brings its steps with it where it is an argument. -/
theorem ChainAgain.brings {a : ArgSpec} {op : String} {init calls : List Step} {text : String}
    (ha : a.type = .surface) (h : ChainAgain k p op base init st calls text)
    (hinit : ∀ st' ∈ init, st'.temp ≠ st.temp) (hout : ∀ o ∈ st.out, o.Named ∧ o.Writable) :
    Phrase EndsArgument (text ++ st.outText)
      (Denotes p.search (Expr.Brings k a (.ref ⟨.temp, st.temp⟩) base (init ++ [st]))) := by
  refine (h.phrase_chain fun o ho => (hout o ho).1).mono (fun _ h => h.endsValue.call) fun ts hts =>
    hts.2.mono ?_
  rintro e ⟨cs, pos, hcs, he⟩ s depth hs hvars hsize
  obtain ⟨pos', hchain, hlt⟩ := he.exists_asChain?
  have hpos : 1 ≤ e.size := by cases e <;> simp [Expr.size] <;> omega
  obtain ⟨depth, rfl⟩ := Nat.exists_eq_add_one_of_ne_zero (by omega : depth ≠ 0)
  have hle : ∀ c ∈ cs, ∀ kw ∈ c.kwargs, kw.value.size ≤ depth := fun c hc kw hkw => by
    have := hlt c hc kw hkw
    omega
  obtain ⟨steps', hagain, hlowered⟩ :=
    hcs.lowers hinit (fun o ho => (hout o ho).2) hs hvars hle (.inl rfl) pos pos'
  refine ⟨steps', ?_, hagain⟩
  have hargument : s.argument (s.subchain (depth + 1)) base a e =
      ((s.subchain (depth + 1) base _).1, (s.subchain (depth + 1) base _).2.map fun t =>
          .ref ⟨.temp, t⟩) :=
    argument_chain _ _ ha (by rwa [hvars, Bindings.deref_empty])
  rw [hargument, subchain, hlowered]
  rfl

end

/-- The text of a value that is no chain has none in it. -/
theorem Printer.valueText_of_came {a : ArgSpec} {v : Value} (h : v.Came a)
    (chain chain' : Nat → String) :
    (k.printer p).valueText chain a v = (k.printer p).valueText chain' a v := by
  cases v with
  | ref o =>
    obtain ⟨-, ho⟩ := h.bears
    rw [valueText, valueText, if_neg ho.kind, if_neg ho.kind]
  | _ => rfl

namespace Grown

variable {gs : List Dynamic} {r : Repeat} {op : String} {out : Option Surface} {base : Nat}
    {init : List Step} {st : Step}

theorem temp_ne {part : Shoot} (h : Grown k gs r part base (init ++ [st])) :
    ∀ st' ∈ init, st'.temp ≠ st.temp := by
  intro st' hst'
  obtain ⟨i, hi, rfl⟩ := List.getElem_of_mem hst'
  have hlast : st.temp = base + init.length := h.temp_of_get? List.getElem?_concat_length
  rw [h.temp_of_get? (by rw [List.getElem?_append_left hi, List.getElem?_eq_getElem hi]), hlast]
  omega

/-- What a chain is written to is an output or a feedback of the language. -/
theorem named {steps : List Step} (h : Grown k gs r (.calls op out) base steps) :
    ∀ o ∈ out, o.Named ∧ o.Writable := by
  cases h <;> assumption

end Grown

/-- What a part of a chain statement is written as is lowered to its steps once more. -/
def Shoot.Again (k : Checker) (p : Plan) (base : Nat) (steps : List Step) : Shoot → Prop
  | .args written => (written.map (·.1.name)).Nodup →
    (∀ w ∈ written, ∀ v, w.2 = some v → (k.printer p).Spells w.1 v) → ∃ items,
      ArgsAgain k p written base steps items
  | .calls op out =>
      ∃ init st calls text, steps = init ++ [st] ∧ st.out = out ∧
        ChainAgain k p op base init st calls text

/-- The steps of a plan that grew out of chains grow again out of what they are written as. -/
theorem Grown.again {gs : List Dynamic} {r : Repeat} {part : Shoot} {base : Nat} {steps : List Step}
    (hops : k.registry.ops.Built) (hn : Namespaces.Sound k.registry.namespaces.records)
    (h : Grown k gs r part base steps)
    (hsteps : ∀ st ∈ steps, p.steps[st.temp]? = some st ∧ (k.printer p).SpellsStep st) :
    part.Again k p base steps := by
  have hspells : ∀ {spec : OpSpec} {written : List (ArgSpec × Option Value)} {temp : Nat} {source :
      Option Nat}
      {out : Option Surface} {st : Step}, st.Calls k gs r spec written temp source out →
        (k.printer p).SpellsStep st →
      ∀ w ∈ written, ∀ v, w.2 = some v → (k.printer p).Spells w.1 v := by
    intro spec written temp source out st hst hspells w hw v hv
    obtain ⟨spec', hlookup, hargs⟩ := hst.lookup
    obtain ⟨hexplicit, hvalue⟩ := hst.explicit hops w hw
    have hmem : w.1 ∈ spec'.args := by
      rw [hargs, ← hst.specs]
      exact List.mem_map_of_mem hw
    exact hspells.values spec' hlookup w.1 hmem (hexplicit.2 (by rw [hv]; rfl)) v (hvalue v hv)
  induction h with
  | nil => exact fun _ _ => ⟨[], .nil⟩
  | omitted _ ih =>
    intro hnodup hvalues
    obtain ⟨ha, hnodup⟩ := List.nodup_cons.1 hnodup
    obtain ⟨items, hitems⟩ := ih hsteps hnodup (List.forall_mem_cons.1 hvalues).2
    exact ⟨items, hitems.omitted ha⟩
  | @plain a v written base steps came _ ih =>
    intro hnodup hvalues
    obtain ⟨ha, hnodup⟩ := List.nodup_cons.1 hnodup
    obtain ⟨hv, hvalues⟩ := List.forall_mem_cons.1 hvalues
    obtain ⟨items, hitems⟩ := ih hsteps hnodup hvalues
    have hphrase : Phrase EndsArgument ((k.printer p).valueText ((k.printer p).chainText 0) a v)
        (Denotes p.search (Expr.Stands k a v)) :=
      Printer.phrase_value came (hv v rfl)
    have hrest : ArgsAgain k p written (base + ([] : List Step).length) steps items := hitems
    have hcons : ArgsAgain k p ((a, some v) :: written) base (([] : List Step) ++ steps) _ :=
      hrest.cons (hphrase.mono (fun _ => id) fun ts hts => hts.mono fun e he => he.brings base)
        (fun depth _ => Printer.valueText_of_came came _ _) ha
    exact ⟨_, hcons⟩
  | @chain a written base last op out own steps surface before hlast _ ihbefore ih =>
    intro hnodup hvalues
    obtain ⟨ha, hnodup⟩ := List.nodup_cons.1 hnodup
    obtain ⟨hown, hrest⟩ := List.forall_mem_append.1 hsteps
    obtain ⟨init, st, calls, text, rfl, hout, hchain⟩ := ihbefore hown
    obtain ⟨items, hitems⟩ := ih hrest hnodup (List.forall_mem_cons.1 hvalues).2
    have htemp : st.temp = last := by
      rw [List.length_append, List.length_singleton] at hlast
      have := hchain.temp
      omega
    subst htemp
    have hst := (hown st (by simp)).1
    refine ⟨_, hitems.cons (hchain.brings surface (before.temp_ne) (hout ▸ before.named))
      (fun depth hdepth => ?_) ha⟩
    exact hchain.chainText_eq hst (by omega)
  | @first spec written base out own st args step starts named ih =>
    obtain ⟨hown, hst⟩ := List.forall_mem_append.1 hsteps
    obtain ⟨hget, hspelled⟩ := hst st (by simp)
    obtain ⟨items, hitems⟩ := ih hown (step.names hops).2 (hspells step hspelled)
    obtain ⟨calls, text, hchain⟩ := ChainAgain.first hops hn step hget hspelled hitems starts
    exact ⟨own, st, calls, text, rfl, step.out, hchain⟩
  | @next op spec written base last out steps own st before hlast args step goesOn named
      ihbefore ih =>
    obtain ⟨hbefore, hrest⟩ := List.forall_mem_append.1 hsteps
    obtain ⟨hown, hst⟩ := List.forall_mem_append.1 hrest
    obtain ⟨hget, hspelled⟩ := hst st (by simp)
    obtain ⟨init, st₀, calls, text, rfl, hout, hchain⟩ := ihbefore hbefore
    have hlength : base + (init ++ [st₀]).length = base + init.length + 1 := by simp; omega
    rw [hlength] at hlast step ih
    have htemp : st₀.temp = last := by
      have := hchain.temp
      omega
    subst htemp
    obtain ⟨items, hitems⟩ := ih hown (step.names hops).2 (hspells step hspelled)
    obtain ⟨text', hchain'⟩ := hchain.next hops hn hout step hget hspelled hitems goesOn
    exact ⟨init ++ [st₀] ++ own, st, calls ++ [st], text', by simp, step.out, hchain'⟩

end EffectChain
