import Mathlib
import EffectChain.Proofs.Plan.Provenance

/-!
# EffectChain.Proofs.Plan.FlagGate

Which calls a flag holds back.

The canonical name of a record can be cut at its last dot, so that it is the name of no
other record and no single name (`Export.cutLast?_canonical`).  A bare call finds active
records or its own single name; it never comes to a record that is inactive
(`active_of_resolve?`).  A call with its namespace is looked up among the operations by the
name that is written when no active record has it, and there is no flag
(`resolve?_explicit`).

* `inactive_step_is_explicit` — a step whose operation is exported by an inactive record
  was written with the namespace of the record, and flags have no part in such calls.
-/

namespace EffectChain

/-! ## names -/

namespace Text

/-- A text without the separator is not cut. -/
theorem cutLast?_eq_none {sep : Char} {s : String} (h : sep ∉ s.toList) :
    cutLast? sep s = none := by
  have hkeep : ∀ c ∈ s.toList.reverse, (decide (c ≠ sep)) = true := by
    intro c hc
    simpa using ne_of_mem_of_not_mem (List.mem_reverse.1 hc) h
  unfold cutLast?
  dsimp only
  rw [List.dropWhile_eq_nil_iff.2 hkeep]

/-- A text is cut at its last separator. -/
theorem cutLast?_append {sep : Char} (s : String) {t : String} (h : sep ∉ t.toList) :
    cutLast? sep (s ++ String.singleton sep ++ t) = some (s, t) := by
  have hkeep : ∀ c ∈ t.toList.reverse, (decide (c ≠ sep)) = true := by
    intro c hc
    simpa using ne_of_mem_of_not_mem (List.mem_reverse.1 hc) h
  have hrev : (s ++ String.singleton sep ++ t).toList.reverse = t.toList.reverse ++ sep ::
      s.toList.reverse := by
    simp
  unfold cutLast?
  dsimp only
  rw [hrev, List.dropWhile_append_of_pos hkeep, List.takeWhile_append_of_pos hkeep]
  simp

end Text

namespace Export

variable {e : Export}

/-- The canonical name of a record gives back what the record is known by. -/
theorem cutLast?_canonical (h : e.isValid = true) : Text.cutLast? '.' e.canonical = some e.key := by
  simp only [isValid, Bool.and_eq_true, decide_eq_true_eq] at h
  obtain ⟨⟨hspace, -⟩, hname⟩ := h
  rw [canonical, if_neg hspace]
  exact Text.cutLast?_append e.space (by simpa using hname)

/-- Valid exports with the same canonical name have the same key. -/
theorem key_of_canonical {e' : Export} (h : e.isValid = true) (h' : e'.isValid = true)
    (heq : e.canonical = e'.canonical) : e.key = e'.key := by
  have hcut := cutLast?_canonical h
  rw [heq, cutLast?_canonical h'] at hcut
  exact (Option.some.inj hcut).symm

/-- A single name is the canonical name of no record. -/
theorem canonical_ne {name : String} (h : e.isValid = true) (hname : Undotted name) :
    e.canonical ≠ name := by
  rintro rfl
  have hcut := cutLast?_canonical h
  rw [Text.cutLast?_eq_none hname] at hcut
  cases hcut

end Export

/-! ## registries -/

namespace Namespaces

/-- Records that were registered and removed one batch after another, and flags that were
set and cleared between. -/
inductive Built : Namespaces → Prop
  | empty : Built {}
  | register {n n' : Namespaces} (h : Built n) {owner : String} {batch : List Export}
      (hr : n.register owner batch = .ok n') : Built n'
  | unregister {n : Namespaces} (h : Built n) (owner : String) : Built (n.unregister owner)
  | setFlagsEnabled {n : Namespaces} (h : Built n) (on : Bool) : Built (n.setFlagsEnabled on)
  | setFlag {n : Namespaces} (h : Built n) (flag : String) (on : Bool) : Built (n.setFlag flag on)
  | clearFlag {n : Namespaces} (h : Built n) (flag : String) : Built (n.clearFlag flag)

/-- Every record has a name and a namespace, and no two are known by the same. -/
structure Sound (rs : List Export) : Prop where
  valid : ∀ e ∈ rs, e.isValid = true
  nodup : (rs.map Export.key).Nodup

/-- Putting an export brings nothing else in. -/
theorem mem_put {e x : Export} {rs : List Export} (h : x ∈ put e rs) : x = e ∨ x ∈ rs := by
  induction rs with
  | nil => exact .inl (List.mem_singleton.1 h)
  | cons r rs ih =>
    unfold put at h
    split at h
    · exact (List.mem_cons.1 h).imp_right (List.mem_cons_of_mem r)
    · rcases List.mem_cons.1 h with rfl | h
      · exact .inr List.mem_cons_self
      · exact (ih h).imp_right (List.mem_cons_of_mem r)

/-- A record takes the place of the one with its key. -/
theorem nodup_put {e : Export} {rs : List Export} (h : (rs.map Export.key).Nodup) :
    ((put e rs).map Export.key).Nodup := by
  induction rs with
  | nil => simp [put]
  | cons r rs ih =>
    obtain ⟨hr, hrs⟩ := List.nodup_cons.1 h
    unfold put
    split
    · next hkey =>
        rw [List.map_cons, ← hkey]
        exact h
    · next hkey =>
        refine List.nodup_cons.2 ⟨fun hmem => ?_, ih hrs⟩
        obtain ⟨x, hx, heq⟩ := List.mem_map.1 hmem
        rcases mem_put hx with rfl | hx
        · exact hkey heq.symm
        · exact hr (List.mem_map.2 ⟨x, hx, heq⟩)

theorem Sound.put {e : Export} {rs : List Export} (h : Sound rs) (he : e.isValid = true) :
    Sound (put e rs) where
  valid x hx := (mem_put hx).elim (fun heq => heq ▸ he) (h.valid x)
  nodup := nodup_put h.nodup

theorem Sound.filter {rs : List Export} (h : Sound rs) (p : Export → Bool) :
    Sound (rs.filter p) where
  valid e he := h.valid e (List.mem_of_mem_filter he)
  nodup := h.nodup.sublist (List.filter_sublist.map Export.key)

/-- The records of a batch that is accepted have a name and a namespace. -/
theorem valid_of_accepted {n : Namespaces} {owner : String} {batch : List Export}
    (h : n.refusal? owner batch = none) : ∀ e ∈ batch, e.isValid = true := by
  intro e he
  have hnone := List.findSome?_eq_none_iff.1 h e he
  by_contra hinvalid
  rw [if_pos (by simpa using hinvalid)] at hnone
  cases hnone

/-- Registering a batch keeps records sound. -/
theorem Sound.register {n n' : Namespaces} (h : Sound n.records) {owner : String}
    {batch : List Export} (hr : n.register owner batch = .ok n') : Sound n'.records := by
  unfold Namespaces.register at hr
  split at hr
  · cases hr
  · next hrefusal =>
      obtain rfl := Except.ok.inj hr
      have hfold : ∀ (es : List Export), (∀ e ∈ es, e.isValid = true) → ∀ rs, Sound rs →
          Sound (es.foldl (fun rs e => Namespaces.put { e with owner } rs) rs) := by
        intro es
        induction es with
        | nil => exact fun _ rs h => h
        | cons e es ih =>
          intro hes rs h
          obtain ⟨he, hes⟩ := List.forall_mem_cons.1 hes
          exact ih hes _ (h.put he)
      exact hfold batch (valid_of_accepted hrefusal) n.records h

/-- Namespaces that are built by changes are sound. -/
theorem Built.sound {n : Namespaces} (h : n.Built) : Sound n.records := by
  induction h with
  | empty => exact ⟨by simp, by simp⟩
  | register _ hr ih => exact ih.register hr
  | unregister _ owner ih => exact ih.filter _
  | setFlagsEnabled _ _ ih => exact ih
  | setFlag _ _ _ ih => exact ih
  | clearFlag _ _ ih => exact ih

theorem Sound.eq_of_key {rs : List Export} (h : Sound rs) {e e' : Export} (he : e ∈ rs)
    (he' : e' ∈ rs) (heq : e.key = e'.key) : e = e' :=
  List.inj_on_of_nodup_map h.nodup he he' heq

variable {n : Namespaces}

/-- A bare name refers to active records only. -/
theorem active_of_resolveBare {name : String} {preferred : List String} {e : Export}
    (h : n.resolveBare name preferred = some e) : e ∈ n.records ∧ n.isActive e = true := by
  unfold resolveBare at h
  rcases Option.or_eq_some_iff.1 h with h | ⟨-, h⟩
  · obtain ⟨space, -, h⟩ := List.exists_of_findSome?_eq_some h
    obtain ⟨hfind, hactive⟩ := Option.filter_eq_some_iff.1 h
    exact ⟨List.mem_of_find?_eq_some hfind, hactive⟩
  · exact ⟨List.mem_of_mem_filter (List.mem_of_find?_eq_some h), List.find?_some h⟩

theorem key_of_lookup {space name : String} {e : Export} (h : n.lookup space name = some e) :
    e.key = (space, name) := by
  have hfind := (Option.filter_eq_some_iff.1 h).1
  simpa using List.find?_some hfind

end Namespaces

/-! ## calls -/

namespace Surroundings

variable {r : Registry} {c : Call} {spec : OpSpec}

/-- The namespaces have no part in a call that is written with one. -/
theorem resolve?_explicit (h : c.ns.explicit = true) :
    resolve? r c = (r.ops.lookup? c.qualifiedName).map fun spec =>
      { spec with name := c.qualifiedName } := by
  have hname : ((r.namespaces.lookup c.ns.name c.name).map Export.canonical).getD c.qualifiedName =
      c.qualifiedName := by
    cases hlookup : r.namespaces.lookup c.ns.name c.name with
    | none => rfl
    | some e =>
      obtain ⟨hspace, hname⟩ := Prod.mk.inj (Namespaces.key_of_lookup hlookup)
      by_cases hempty : c.ns.name = "" <;>
        simp [Export.canonical, CallOf.qualifiedName, h, hspace, hname, hempty]
  unfold resolve?
  dsimp only
  rw [if_pos h, hname]

/-- A call without a namespace comes to no inactive record. -/
theorem active_of_resolve? (hn : Namespaces.Sound r.namespaces.records) (hname : Undotted c.name)
    (hc : c.ns.explicit = false) (h : resolve? r c = some spec) {e : Export}
    (he : e ∈ r.namespaces.records) (hop : e.canonical = spec.name) :
    r.namespaces.isActive e = true := by
  have hbare : r.namespaces.resolve c.name (some c.ns.preferred) =
      r.namespaces.resolveBare c.name c.ns.preferred := by
    rw [Namespaces.resolve, Text.cutLast?_eq_none hname]
    rfl
  unfold resolve? at h
  dsimp only at h
  rw [if_neg (by simp [hc]), hbare] at h
  obtain ⟨spec', -, rfl⟩ := Option.map_eq_some_iff.1 h
  cases hfound : r.namespaces.resolveBare c.name c.ns.preferred with
  | none =>
    -- the call would stand for its own name
    have hown : e.canonical = c.name := by simpa [hfound, CallOf.qualifiedName, hc] using hop
    exact absurd hown (Export.canonical_ne (hn.valid e he) hname)
  | some e' =>
    obtain ⟨he', hactive⟩ := Namespaces.active_of_resolveBare hfound
    have hcanonical : e.canonical = e'.canonical := by simpa [hfound] using hop
    rw [hn.eq_of_key he he' (Export.key_of_canonical (hn.valid e he) (hn.valid e' he') hcanonical)]
    exact hactive

/-- A call that comes to an inactive record is written with its namespace. -/
theorem explicit_of_inactive (hn : Namespaces.Sound r.namespaces.records) (hname : Undotted c.name)
    (h : resolve? r c = some spec) {e : Export} (he : e ∈ r.namespaces.records)
    (hop : e.canonical = spec.name) (hinactive : r.namespaces.isActive e = false) :
    c.ns.explicit = true ∧ c.ns.name = e.space := by
  cases hc : c.ns.explicit with
  | false =>
    rw [active_of_resolve? hn hname hc h he hop] at hinactive
    cases hinactive
  | true =>
    rw [resolve?_explicit hc] at h
    obtain ⟨spec', -, rfl⟩ := Option.map_eq_some_iff.1 h
    have hvalid := hn.valid e he
    have hspace : c.ns.name ≠ "" := by
      intro hempty
      have hown : e.canonical = c.name := by simpa [CallOf.qualifiedName, hempty] using hop
      exact Export.canonical_ne hvalid hname hown
    have hcut := Export.cutLast?_canonical hvalid
    have hwritten : e.canonical = c.ns.name ++ String.singleton '.' ++ c.name := by
      simpa [CallOf.qualifiedName, hc, hspace] using hop
    rw [hwritten, Text.cutLast?_append c.ns.name hname] at hcut
    exact ⟨rfl, congrArg Prod.fst (Option.some.inj hcut)⟩

end Surroundings

/-! ## plans -/

/-- A step whose operation is exported by an inactive record was written with the namespace
of the record; to a call that is written with one, records and flags are nothing. -/
theorem inactive_step_is_explicit {registry : Registry} (hn : registry.namespaces.Built)
    {source : Bytes} {options : Options} {p : Plan}
    (h : Plan.compile source registry options = .ok p) :
    (∀ st ∈ p.steps, ∀ e ∈ registry.namespaces.records, registry.namespaces.isActive e = false →
      st.op = e.canonical → st.ns.explicit = true ∧ st.ns.name = e.space) ∧
    ∀ c : Call, c.ns.explicit = true → ∀ namespaces,
      Surroundings.resolve? { registry with namespaces } c = Surroundings.resolve? registry c := by
  obtain ⟨program, hparse, hplan⟩ := Plan.compile_eq_ok_iff.1 h
  refine ⟨Kept.plan (.forall ?_ (fun _ _ _ h => h) ?_) hparse hplan, fun c hc namespaces => ?_⟩
  · intro s sub base c spec source hs hc hspec e he hinactive hop
    exact Surroundings.explicit_of_inactive hn.sound hc.name hspec he hop.symm hinactive
  · intro n factor st _ hst
    unfold Surroundings.repeated
    dsimp only
    split <;> exact hst
  · rw [Surroundings.resolve?_explicit hc, Surroundings.resolve?_explicit hc]

/-! ### an effect behind a flag -/

/-- An operation that begins chains, under a flag that is off. -/
def flagged : Registry where
  namespaces := {
    records := [{ space := "fx", name := "glow", flag := "beta", owner := "fx.yaml" }]
    flagsOn := false }
  ops := { specs := .ofList [("fx.glow", { name := "fx.glow" })], starters := ["fx.glow"] }

theorem flagged_built : flagged.namespaces.Built := by
  have hvalid : Export.isValid { space := "fx", name := "glow", flag := "beta" } = true := by cbv
  have hregister : ({} : Namespaces).register "fx.yaml"
      [{ space := "fx", name := "glow", flag := "beta" }] =
      .ok { records := flagged.namespaces.records } := by
    have hrefusal : ({} : Namespaces).refusal? "fx.yaml"
        [{ space := "fx", name := "glow", flag := "beta" }] = none := by
      rw [Namespaces.refusal?, List.findSome?_singleton, hvalid]
      rfl
    rw [Namespaces.register, hrefusal]
    rfl
  exact .setFlagsEnabled (.register .empty hregister) false

/-- A bare call, one with the namespace, one that is pinned to it and one through a variable. -/
def flaggedSource : Bytes :=
  .ofString
    ("search fx glow().out(o0) fx.glow().out(o1) from(fx, glow()).out(o2) " ++
      "let g = fx.glow g().out(o3)")

def flaggedTokens : List Token :=
  let token (col : Nat) (kind : TokenKind) (word : String) : Token :=
    ⟨kind, Bytes.ofString word, ⟨1, col⟩⟩
  [token 1 .keyword "search", token 8 .identifier "fx",
    token 11 .identifier "glow", token 15 .lparen "(", token 16 .rparen ")", token 17 .dot ".",
    token 18 .identifier "out", token 21 .lparen "(", token 22 .surface "o0", token 24 .rparen ")",
    token 26 .identifier "fx", token 28 .dot ".", token 29 .identifier "glow", token 33 .lparen "(",
    token 34 .rparen ")", token 35 .dot ".", token 36 .identifier "out", token 39 .lparen "(",
    token 40 .surface "o1", token 42 .rparen ")",
    token 44 .keyword "from", token 48 .lparen "(", token 49 .identifier "fx", token 51 .comma ",",
    token 53 .identifier "glow", token 57 .lparen "(", token 58 .rparen ")", token 59 .rparen ")",
    token 60 .dot ".", token 61 .identifier "out", token 64 .lparen "(", token 65 .surface "o2",
    token 67 .rparen ")",
    token 69 .keyword "let", token 73 .identifier "g", token 75 .assign "=",
    token 77 .identifier "fx", token 79 .dot ".", token 80 .identifier "glow",
    token 85 .identifier "g", token 86 .lparen "(", token 87 .rparen ")", token 88 .dot ".",
    token 89 .identifier "out", token 92 .lparen "(", token 93 .surface "o3", token 95 .rparen ")",
    token 96 .endOfInput ""]

/-- The namespace of a call that is written with it. -/
def flaggedSpace (source : NamespaceSource) : NamespaceRef :=
  { name := "fx", path := ["fx"], explicit := true, source, resolved := true, search := ["fx"] }

def flaggedProgram : Program where
  search := ["fx"]
  statements :=
    let bare := { resolved := true, search := ["fx"] }
    let run (call : Call) (target : Surface) (col : Nat) : Stmt :=
      .run { calls := [call], out := some (.surface target ⟨1, col⟩), pos := call.pos } call.pos
    [run { name := "glow", ns := bare, pos := ⟨1, 11⟩ } ⟨.output, 0⟩ 22,
      run { name := "glow", ns := flaggedSpace .qualified, pos := ⟨1, 26⟩ } ⟨.output, 1⟩ 40,
      run { name := "glow", ns := flaggedSpace .pinned, pos := ⟨1, 44⟩ } ⟨.output, 2⟩ 65,
      .bind "g" (.member ["fx", "glow"] ⟨1, 77⟩) ⟨1, 69⟩,
      run { name := "g", ns := bare, pos := ⟨1, 85⟩ } ⟨.output, 3⟩ 93]
  vars := ["g"]

def flaggedPlan : Plan where
  search := ["fx"]
  steps :=
    [{ op := "fx.glow", temp := 0, ns := flaggedSpace .qualified, out := some ⟨.output, 1⟩,
       pos := ⟨1, 26⟩ },
      { op := "fx.glow", temp := 1, ns := flaggedSpace .pinned, out := some ⟨.output, 2⟩,
        pos := ⟨1, 44⟩ },
      { op := "fx.glow", temp := 2, ns := flaggedSpace .qualified, out := some ⟨.output, 3⟩,
        pos := ⟨1, 85⟩ }]
  diagnostics := [{ problem := .unknownOperation "glow", pos := ⟨1, 11⟩ }]

theorem flagged_compile :
    Plan.compile flaggedSource flagged { suggest := false } = .ok flaggedPlan := by
  have hscan : Token.scan flaggedSource = .ok flaggedTokens := by
    rw [flaggedSource, Bytes.ofString, String.toList_append, String.toList_ofList,
      String.toList_ofList]
    decide +kernel
  have hparse : Program.ofTokens { suggest := false } flaggedTokens = .ok flaggedProgram := by cbv
  exact Plan.compile_of_stages hscan hparse rfl

/-- Of the four calls only the bare one is held back. -/
theorem flagged_steps_explicit : flagged.namespaces.Built ∧
    Plan.compile flaggedSource flagged { suggest := false } = .ok flaggedPlan ∧
    (∀ e ∈ flagged.namespaces.records, flagged.namespaces.isActive e = false ∧
      flaggedPlan.steps.map Step.op = [e.canonical, e.canonical, e.canonical]) ∧
    (∀ st ∈ flaggedPlan.steps, ∀ e ∈ flagged.namespaces.records,
      flagged.namespaces.isActive e = false →
      st.op = e.canonical → st.ns.explicit = true ∧ st.ns.name = e.space) ∧
    ∀ c : Call, c.ns.explicit = true → ∀ namespaces,
      Surroundings.resolve? { flagged with namespaces } c = Surroundings.resolve? flagged c := by
  refine ⟨flagged_built, flagged_compile, ?_,
    inactive_step_is_explicit flagged_built flagged_compile⟩
  intro e he
  obtain rfl := List.mem_singleton.1 he
  exact ⟨rfl, by decide⟩

end EffectChain
