import EffectChain.Catalog.Basic
import EffectChain.Proofs.Data.Table

/-!
# EffectChain.Proofs.Catalog.FailedInstall

What a catalog file that is refused leaves behind.

A file takes the place of what its origin installed before, which is removed first.
Exports and operations of the file are taken back when a later part of it is refused
(`Namespaces.unregister_register`, `Library.addOperations_refused`); what was removed is
not brought back.

* `failed_install_effect` — the library after a file was refused, and when it is the
  library from before.
-/

namespace EffectChain

/-! ## exports -/

namespace Namespaces

variable {n n' : Namespaces} {owner : String} {e : Export} {rs : List Export}

/-- Finding an export after one is put. -/
theorem find?_put (e : Export) (rs : List Export) (key : String × String) :
    (put e rs).find? (·.key = key) = if e.key = key then some e else rs.find? (·.key = key) := by
  induction rs with
  | nil => by_cases h : e.key = key <;> simp [put, h]
  | cons r rs ih =>
      rw [put]
      by_cases hr : r.key = e.key
      · by_cases h : e.key = key <;> simp [hr, h]
      · rw [if_neg hr]
        by_cases hk : r.key = key
        · have hne : ¬ e.key = key := fun heq => hr (hk.trans heq.symm)
          simp [hk, hne]
        · simp [hk, ih]

/-- A record in place of one of its owner makes no difference to other owners. -/
theorem filter_put (he : e.owner = owner)
    (h : ∀ r, rs.find? (·.key = e.key) = some r → r.owner = owner) :
    (put e rs).filter (·.owner ≠ owner) = rs.filter (·.owner ≠ owner) := by
  induction rs with
  | nil => simp [put, he]
  | cons r rs ih =>
      rw [put]
      by_cases hr : r.key = e.key
      · have hown : r.owner = owner := h r (by simp [hr])
        simp [hr, he, hown]
      · have hrest := ih fun x hx => h x (by simpa [hr] using hx)
        rw [if_neg hr, List.filter_cons, List.filter_cons, hrest]

/-- A batch is accepted when every record in its place is one of its owner. -/
theorem owner_of_accepted {batch : List Export} (h : n.refusal? owner batch = none) {r : Export}
    (he : e ∈ batch) (hr : n.find? e.key = some r) : r.owner = owner := by
  have hnone := List.findSome?_eq_none_iff.1 h e he
  rw [hr] at hnone
  by_contra hne
  by_cases hvalid : e.isValid <;> simp [hvalid, hne] at hnone

/-- Taking back the records of an owner takes back what was added for it. -/
theorem unregister_register {batch : List Export} (h : n.register owner batch = .ok n') :
    n'.unregister owner = n.unregister owner := by
  have hfold : ∀ (batch : List Export) (rs : List Export),
      (∀ e ∈ batch, ∀ r, rs.find? (·.key = e.key) = some r → r.owner = owner) →
      (batch.foldl (fun rs e => put { e with owner } rs) rs).filter (·.owner ≠ owner) =
        rs.filter (·.owner ≠ owner) := by
    intro batch
    induction batch with
    | nil => exact fun rs _ => rfl
    | cons e batch ih =>
        intro rs hrs
        have hput := filter_put (e := { e with owner }) rfl (hrs e List.mem_cons_self)
        rw [List.foldl_cons, ih, hput]
        intro x hx r hr
        rw [find?_put] at hr
        split at hr
        · exact Option.some.inj hr ▸ rfl
        · exact hrs x (List.mem_cons_of_mem e hx) r hr
  unfold register at h
  split at h
  · cases h
  · rename_i haccepted
    obtain rfl := Except.ok.inj h
    have hkept := hfold batch n.records fun e he r hr => owner_of_accepted haccepted he hr
    simp only [unregister, hkept]

theorem unregister_eq_self_iff : n.unregister owner = n ↔ ∀ r ∈ n.records, r.owner ≠ owner := by
  obtain ⟨records, flagsOn, flags⟩ := n
  simp [unregister, List.filter_eq_self]

end Namespaces

/-! ## operations -/

namespace Operations

/-- Nothing is known under the name. -/
def Lacks (o : Operations) (name : String) : Prop :=
  o.specs.get? name = none ∧ name ∉ o.starters ∧ name ∉ o.passthrough

/-- The operations without those of the given names. -/
def without (o : Operations) (names : List String) : Operations where
  specs := o.specs.filter fun name _ => name ∉ names
  starters := o.starters.filter (· ∉ names)
  passthrough := o.passthrough.filter (· ∉ names)

variable {o o' : Operations}

theorem without_nil (o : Operations) : o.without [] = o := by
  obtain ⟨specs, starters, passthrough⟩ := o
  have hspecs : specs.filter (fun name _ => name ∉ ([] : List String)) = specs := by
    refine Table.ext_get? fun k => ?_
    rw [Table.get?_filter]
    cases specs.get? k <;> simp
  simp only [without, hspecs]
  simp

/-- Taking out two lists of names is taking out both. -/
theorem without_append (o : Operations) (xs ys : List String) :
    o.without (xs ++ ys) = (o.without xs).without ys := by
  have hspecs : (o.specs.filter fun name _ => name ∉ xs ++ ys) =
      (o.specs.filter fun name _ => name ∉ xs).filter fun name _ => name ∉ ys := by
    refine Table.ext_get? fun k => ?_
    rw [Table.get?_filter, Table.get?_filter, Table.get?_filter, Option.filter_filter]
    cases o.specs.get? k <;> simp [Option.filter]
  simp only [without, hspecs, List.filter_filter]
  simp [Bool.and_comm]

/-- Lists of names may be taken out in either order. -/
theorem without_comm (o : Operations) (xs ys : List String) :
    (o.without xs).without ys = (o.without ys).without xs := by
  have hsame : ∀ a : String, (a ∉ xs ++ ys) = (a ∉ ys ++ xs) := by
    intro a
    simp [and_comm]
  rw [← without_append, ← without_append]
  simp only [without, hsame]

/-- Unregistering is taking out one name. -/
theorem unregister_eq (o : Operations) (name : String) : o.unregister name = o.without [name] := by
  have hspecs : o.specs.erase name = o.specs.filter fun a _ => a ∉ [name] := by
    refine Table.ext_get? fun k => ?_
    rw [Table.get?_erase, Table.get?_filter]
    by_cases hk : k = name <;> cases o.specs.get? k <;> simp [hk, Option.filter]
  simp [unregister, without, hspecs]

/-- Unregistering names is taking them out. -/
theorem foldl_unregister (names : List String) (o : Operations) :
    names.foldl unregister o = o.without names := by
  induction names generalizing o with
  | nil => exact (without_nil o).symm
  | cons name names ih =>
      rw [List.foldl_cons, ih, unregister_eq, ← without_append]
      rfl

/-- Removing names makes no difference only where nothing is known under them. -/
theorem without_eq_self_iff {names : List String} :
    o.without names = o ↔ ∀ name ∈ names, o.Lacks name := by
  constructor
  · intro h name hname
    have hspecs : o.specs = _ := congrArg specs h.symm
    have hstarters : o.starters = _ := congrArg starters h.symm
    have hpassthrough : o.passthrough = _ := congrArg passthrough h.symm
    refine ⟨?_, ?_, ?_⟩
    · rw [hspecs, without, Table.get?_filter]
      cases o.specs.get? name <;> simp [hname]
    · rw [hstarters]
      simp [without, hname]
    · rw [hpassthrough]
      simp [without, hname]
  · intro h
    obtain ⟨specs, starters, passthrough⟩ := o
    have hspecs : (specs.filter fun name _ => name ∉ names) = specs := by
      refine Table.ext_get? fun k => ?_
      rw [Table.get?_filter]
      by_cases hk : k ∈ names
      · rw [(h k hk).1]
        rfl
      · cases specs.get? k <;> simp [hk]
    have hlist : ∀ xs : List String, (∀ name ∈ names, name ∉ xs) → xs.filter (· ∉ names) = xs := by
      intro xs hxs
      refine List.filter_eq_self.2 fun a ha => ?_
      simpa using fun hmem => hxs a hmem ha
    simp only [without, hspecs, hlist starters fun a ha => (h a ha).2.1,
      hlist passthrough fun a ha => (h a ha).2.2]

theorem filter_mark (names : List String) (n : String) :
    (mark names n).filter (· ∉ [n]) = names.filter (· ∉ [n]) := by
  unfold mark
  split <;> simp

/-- An operation that is removed again leaves no trace. -/
theorem without_register {name : String} {args : List ArgSpec} (h : o.register name args = .ok o') :
    o'.without [name] = o.without [name] := by
  have hspecs : ((o.specs.insert name ⟨name, args⟩).filter fun a _ => a ∉ [name]) =
      o.specs.filter fun a _ => a ∉ [name] := by
    refine Table.ext_get? fun k => ?_
    rw [Table.get?_filter, Table.get?_filter, Table.get?_insert]
    by_cases hk : k = name
    · cases o.specs.get? k <;> simp [hk]
    · rw [if_neg hk]
  unfold register at h
  split at h
  · cases h
  · split at h
    · cases h
    · obtain rfl := Except.ok.inj h
      simp only [without, hspecs]

/-- Nor does its mark. -/
theorem without_markStarters (o : Operations) (name : String) :
    (o.markStarters [name]).without [name] = o.without [name] := by
  simp only [without, markStarters, List.foldl_cons, List.foldl_nil, filter_mark]

theorem without_markPassthrough (o : Operations) (name : String) :
    (o.markPassthrough [name]).without [name] = o.without [name] := by
  simp only [without, markPassthrough, List.foldl_cons, List.foldl_nil, filter_mark]

/-- An operation is registered when it has a name and accepted parameters. -/
theorem register_ok_iff {name : String} {args : List ArgSpec} :
    (∃ o', o.register name args = .ok o') ↔ name ≠ "" ∧ OpSpec.badArg? [] args = none := by
  unfold register
  split
  · simp_all
  · split <;> simp_all

end Operations

/-! ## files -/

/-- The exports of a file on behalf of an owner. -/
def CatalogFile.exports (f : CatalogFile) (owner : String) : List Export :=
  f.effects.map fun d => { space := d.space, name := d.name, flag := d.flag, owner }

theorem CatalogFile.map_export (f : CatalogFile) (owner : String) :
    (f.effects.map fun d => { space := d.space, name := d.name, flag := d.flag, owner : Export }) =
      f.exports owner :=
  rfl

namespace Library

/-- The effect has a name and arguments that can be told apart. -/
def isOperation (d : Descriptor) : Bool :=
  match d.args with
  | .ok args => d.canonical ≠ "" && (OpSpec.badArg? [] args).isNone
  | .error _ => false

/-- The effects of a file that come before the first that is no operation. -/
def operationsOf (f : CatalogFile) : List String :=
  (f.effects.takeWhile isOperation).map Descriptor.canonical

/-- Adding an operation changes the table at its name. -/
theorem addOperation_ok {ops ops' : Operations} {d : Descriptor}
    (h : addOperation ops d = .ok ops') :
    isOperation d = true ∧ ops'.without [d.canonical] = ops.without [d.canonical] := by
  unfold addOperation at h
  split at h
  · cases h
  · rename_i args hargs
    split at h
    · cases h
    · rename_i ops₁ hregister
      obtain ⟨hname, hbad⟩ := Operations.register_ok_iff.1 ⟨ops₁, hregister⟩
      obtain rfl := Except.ok.inj h
      refine ⟨by simp [isOperation, hargs, hname, hbad], ?_⟩
      cases d.starter <;> cases d.passthrough <;>
        simp [Operations.without_markStarters, Operations.without_markPassthrough,
          Operations.without_register hregister]

/-- What is refused as an operation is none. -/
theorem addOperation_error {ops : Operations} {d : Descriptor} {e : CatalogError}
    (h : addOperation ops d = .error e) : isOperation d = false := by
  unfold addOperation at h
  split at h
  · rename_i hargs
    simp [isOperation, hargs]
  · rename_i args hargs
    split at h
    · rename_i e' hregister
      have hnot : ¬ ∃ ops', ops.register d.canonical args = .ok ops' := by simp [hregister]
      rw [Operations.register_ok_iff, not_and] at hnot
      simpa [isOperation, hargs, Option.isSome_iff_ne_none] using hnot
    · cases h

/-- What was done so far differs from the start only under the names that are noted. -/
theorem without_snoc {start ops ops' : Operations} {done : List String} {name : String}
    (h : ops.without done = start.without done) (hone : ops'.without [name] = ops.without [name]) :
    ops'.without (done ++ [name]) = start.without (done ++ [name]) := by
  rw [Operations.without_append, Operations.without_append, Operations.without_comm, hone,
    Operations.without_comm, h]

/-- Operations that are refused are taken back, with those added before them. -/
theorem addOperations_refused {start ops ops' : Operations} {done : List String}
    {ds : List Descriptor} {e : CatalogError} (hdone : ops.without done = start.without done)
    (h : addOperations ops done ds = (ops', some e)) :
    ops' = start.without (done ++ (ds.takeWhile isOperation).map Descriptor.canonical) := by
  fun_induction addOperations ops done ds with
  | case1 => cases h
  | case2 ops done d ds ops₁ hadd ih =>
      obtain ⟨hop, hone⟩ := addOperation_ok hadd
      rw [ih (without_snoc hdone hone) h]
      simp [hop]
  | case3 ops done d ds e' hadd =>
      have hop := addOperation_error hadd
      obtain rfl := (Prod.mk.inj h).1
      rw [Operations.foldl_unregister, hdone]
      simp [hop]

/-- Operations that are all accepted differ from the start only under their names. -/
theorem addOperations_accepted {start ops ops' : Operations} {done : List String}
    {ds : List Descriptor} (hdone : ops.without done = start.without done)
    (h : addOperations ops done ds = (ops', none)) :
    ds.takeWhile isOperation = ds ∧
      ops'.without (done ++ ds.map Descriptor.canonical) =
        start.without (done ++ ds.map Descriptor.canonical) := by
  fun_induction addOperations ops done ds with
  | case1 ops done =>
      obtain rfl := (Prod.mk.inj h).1
      simpa using hdone
  | case2 ops done d ds ops₁ hadd ih =>
      obtain ⟨hop, hone⟩ := addOperation_ok hadd
      obtain ⟨hall, hsame⟩ := ih (without_snoc hdone hone) h
      exact ⟨by simp [hop, hall], by simpa using hsame⟩
  | case3 => cases h

/-- The library after a file was refused.  The file of another origin's effect changes
nothing.  Otherwise what the origin had installed is gone; and when the exports of the
file were accepted, so is everything that was exported by its owner or known under the
names of its operations. -/
def afterRefusal (l : Library) (f : CatalogFile) : Library :=
  let owner := ownerName f
  if (l.conflict? owner f).isSome then l
  else
    let l := (l.uninstall owner).1
    if (l.registry.namespaces.refusal? owner (f.exports owner)).isSome then l
    else { l with
      registry := { l.registry with
        namespaces := l.registry.namespaces.unregister owner
        ops := l.registry.ops.without (operationsOf f) } }

/-- A refused file leaves the library as `afterRefusal` says. -/
theorem install_refused {l l' : Library} {f : CatalogFile} {err : CatalogError}
    (h : l.install f = (l', some err)) :
    l' = l.afterRefusal f := by
  unfold install at h
  unfold afterRefusal
  dsimp only at h ⊢
  split at h
  · rename_i e hconflict
    rw [if_pos (by simp [hconflict])]
    exact (Prod.mk.inj h).1.symm
  · rename_i hconflict
    rw [if_neg (by simp [hconflict])]
    generalize (l.uninstall (ownerName f)).1 = l at h ⊢
    rw [f.map_export] at h
    split at h
    · rename_i e hregister
      unfold Namespaces.register at hregister
      split at hregister
      · rename_i hrefusal
        rw [if_pos (by simp [hrefusal])]
        exact (Prod.mk.inj h).1.symm
      · cases hregister
    · rename_i namespaces hregister
      have haccepted : l.registry.namespaces.refusal? (ownerName f) (f.exports (ownerName f)) =
          none := by
        unfold Namespaces.register at hregister
        split at hregister
        · cases hregister
        · assumption
      rw [if_neg (by simp [haccepted])]
      have hback := Namespaces.unregister_register hregister
      split at h
      · rename_i ops e hops
        rw [← (Prod.mk.inj h).1, hback, addOperations_refused rfl hops]
        rfl
      · rename_i ops hops
        obtain ⟨hall, hsame⟩ := addOperations_accepted rfl hops
        split at h
        · rw [← (Prod.mk.inj h).1, hback, Operations.foldl_unregister, operationsOf, hall]
          simpa using hsame
        · cases h

/-- A file that is accepted is put in place of what its owner had. -/
theorem install_accepted {l : Library} {f : CatalogFile} (h : (l.install f).2 = none) :
    l.conflict? (ownerName f) f = none ∧ ∃ namespaces ops enums,
      (l.uninstall (ownerName f)).1.registry.namespaces.register (ownerName f)
        (f.exports (ownerName f)) =
        .ok namespaces ∧
      addOperations (l.uninstall (ownerName f)).1.registry.ops [] f.effects = (ops, none) ∧
      (l.install f).1 =
        { registry := { namespaces, ops, enums }
          catalog := {
            effects := f.effects.foldl (fun t d => t.insert d.canonical d)
              (l.uninstall (ownerName f)).1.catalog.effects
            owners := (l.uninstall (ownerName f)).1.catalog.owners.insert (ownerName f)
              (f.effects.map Descriptor.canonical)
            generation := (l.uninstall (ownerName f)).1.catalog.generation + 1 } } := by
  unfold install at h ⊢
  dsimp only at h ⊢
  split at h
  · cases h
  · rename_i hfree
    generalize (l.uninstall (ownerName f)).1 = l at h ⊢
    rw [f.map_export] at h ⊢
    split at h
    · cases h
    · rename_i namespaces hexports
      split at h
      · cases h
      · rename_i ops hops
        split at h
        · cases h
        · rename_i enums _
          exact ⟨hfree, namespaces, ops, enums, hexports, hops, rfl⟩

/-- With the exports and operations of a file accepted, its constants decide. -/
theorem install_of_operations {l : Library} {f : CatalogFile} {namespaces : Namespaces}
    {ops : Operations} (hfree : l.conflict? (ownerName f) f = none)
    (hexports : (l.uninstall (ownerName f)).1.registry.namespaces.register (ownerName f)
      (f.exports (ownerName f)) =
      .ok namespaces)
    (hops : addOperations (l.uninstall (ownerName f)).1.registry.ops [] f.effects = (ops, none)) :
    l.install f =
      match (l.uninstall (ownerName f)).1.registry.enums.merge f.enums with
      | .error e => (l.afterRefusal f, some (.registry e))
      | .ok enums =>
        ({ registry := { namespaces, ops, enums }
           catalog := {
            effects := f.effects.foldl (fun t d => t.insert d.canonical d)
              (l.uninstall (ownerName f)).1.catalog.effects
            owners := (l.uninstall (ownerName f)).1.catalog.owners.insert (ownerName f)
              (f.effects.map Descriptor.canonical)
            generation := (l.uninstall (ownerName f)).1.catalog.generation + 1 } }, none) := by
  split
  · rename_i e hmerge
    have hrefused : ∃ l', l.install f = (l', some (.registry e)) := by
      simp [install, f.map_export, hfree, hexports, hops, hmerge]
    obtain ⟨l', hl'⟩ := hrefused
    rw [hl', install_refused hl']
  · rename_i enums hmerge
    simp [install, f.map_export, hfree, hexports, hops, hmerge]

end Library

open Library in
/-- A file that is refused leaves the library as it was if and only if it was refused for
an effect of another origin, or its origin had nothing installed and its exports were
refused or there was nothing of its owner and its operations in the registry.  In all
other cases it takes things away, and first of all what its origin had installed. -/
theorem failed_install_effect {l l' : Library} {f : CatalogFile} {err : CatalogError}
    (h : l.install f = (l', some err)) :
    l' = l.afterRefusal f ∧
      (l' = l ↔ (l.conflict? (ownerName f) f).isSome = true ∨
        l.catalog.owners.get? (ownerName f) = none ∧
          ((l.registry.namespaces.refusal? (ownerName f) (f.exports (ownerName f))).isSome = true ∨
            (∀ r ∈ l.registry.namespaces.records, r.owner ≠ ownerName f) ∧
              ∀ name ∈ operationsOf f, l.registry.ops.Lacks name)) := by
  have heffect := install_refused h
  refine ⟨heffect, ?_⟩
  rw [heffect]
  unfold afterRefusal
  dsimp only
  split
  · simp_all
  · rename_i hconflict
    cases hinstalled : l.catalog.owners.get? (ownerName f) with
    | some names =>
        -- the removal counts, so the library cannot be the same
        have hgeneration : ∀ l', l'.catalog = (l.uninstall (ownerName f)).1.catalog → l' ≠ l := by
          rintro l' hl' rfl
          have := congrArg Catalog.generation hl'
          simp [uninstall, hinstalled] at this
        simp only [hconflict, reduceCtorEq, false_and, or_false, iff_false]
        split <;> exact hgeneration _ rfl
    | none =>
        have hnothing : (l.uninstall (ownerName f)).1 = l := by simp [uninstall, hinstalled]
        rw [hnothing]
        split
        · simp_all
        · rename_i hrefusal
          rw [← Namespaces.unregister_eq_self_iff, ← Operations.without_eq_self_iff]
          obtain ⟨⟨namespaces, enums, ops⟩, catalog⟩ := l
          simp [hconflict, hrefusal]

/-! ## a later version that is refused -/

/-- An effect that fills its image. -/
def glow : Descriptor where
  name := "glow"
  space := "fx"
  starter := true
  programs := .ofList [("glow", { wgsl := "fn main() \x7b\x7d" })]
  passes := [{ program := "glow", outputs := .ofList [("color", "outputTex")] }]

/-- The file of the effect. -/
def glowFile : CatalogFile := { space := "fx", effects := [glow], origin := "glow.yaml" }

/-- A later version of the file, with a constant that is no number. -/
def glowModes : CatalogFile := { glowFile with enums := [("mode", .text "soft")] }

/-- The library with the first version installed. -/
def glowing : Library where
  registry.namespaces.records := glowFile.exports "glow.yaml"
  registry.ops := { specs := .ofList [("fx.glow", { name := "fx.glow" })], starters := ["fx.glow"] }
  catalog.effects := .ofList [("fx.glow", glow)]
  catalog.owners := .ofList [("glow.yaml", ["fx.glow"])]
  catalog.generation := 1

/-- The effect is accepted where nothing is exported. -/
theorem register_glow :
    ({} : Namespaces).register "glow.yaml" (glowFile.exports "glow.yaml") =
      .ok { records := glowFile.exports "glow.yaml" } := by
  have hvalid : ({ space := "fx", name := "glow", owner := "glow.yaml" } : Export).isValid =
      true := by
    simp [Export.isValid]
  have haccepted : ({} : Namespaces).refusal? "glow.yaml" (glowFile.exports "glow.yaml") =
      none := by
    simp [Namespaces.refusal?, CatalogFile.exports, glowFile, glow, hvalid, Namespaces.find?]
  rw [Namespaces.register, haccepted]
  rfl

theorem install_glow : ({} : Library).install glowFile = (glowing, none) := by
  have hmerge : EnumTree.empty.merge glowFile.enums = .ok EnumTree.empty := by
    simp [EnumTree.merge, glowFile, EnumTree.entriesInOrder, Document.sortEntries,
      EnumTree.overlayEntries]
  rw [Library.install_of_operations (l := {}) (f := glowFile) rfl register_glow rfl]
  change (match EnumTree.empty.merge glowFile.enums with
    | .error e => _
    | .ok enums => _) = _
  rw [hmerge]
  rfl

theorem install_glowModes : (glowing.install glowModes).2.isSome = true := by
  have hmerge : ∃ e, EnumTree.empty.merge glowModes.enums = .error e := by
    simp [EnumTree.merge, glowModes, EnumTree.entriesInOrder, EnumTree.inOrder,
      Document.sortEntries, EnumTree.overlayEntries, EnumTree.overlay, bind, Except.bind]
  obtain ⟨e, hmerge⟩ := hmerge
  rw [Library.install_of_operations (l := glowing) (f := glowModes) rfl register_glow rfl]
  change (match EnumTree.empty.merge glowModes.enums with
    | .error e => _
    | .ok enums => _ : Library × Option CatalogError).2.isSome = true
  rw [hmerge]
  rfl

/-- The later version is refused, and the effect of the earlier one is gone. -/
theorem refused_version_removes_glow :
    ({} : Library).install glowFile = (glowing, none) ∧
    (glowing.install glowModes).2.isSome = true ∧
      (glowing.catalog.lookup? "fx.glow").isSome = true ∧
      glowing.registry.ops.isStarter "fx.glow" = true ∧
      ((glowing.install glowModes).1.catalog.lookup? "fx.glow").isSome = false ∧
      (glowing.install glowModes).1.registry.ops.isStarter "fx.glow" = false ∧
      (glowing.install glowModes).1 ≠ glowing := by
  obtain ⟨err, herr⟩ := Option.isSome_iff_exists.1 install_glowModes
  have hinstall : glowing.install glowModes = ((glowing.install glowModes).1, some err) :=
    Prod.ext rfl herr
  obtain ⟨heffect, hsame⟩ := failed_install_effect hinstall
  -- whether the exports are refused makes no difference to the effect
  have hgone : ((glowing.afterRefusal glowModes).catalog.lookup? "fx.glow").isSome = false ∧
      (glowing.afterRefusal glowModes).registry.ops.isStarter "fx.glow" = false := by
    unfold Library.afterRefusal
    dsimp only
    rw [if_neg (by decide +kernel)]
    split <;> decide +kernel
  rw [← heffect] at hgone
  refine ⟨install_glow, install_glowModes, by decide +kernel, by decide +kernel, hgone.1,
    hgone.2, ?_⟩
  · rw [ne_eq, hsame]
    rintro (hconflict | ⟨hnone, -⟩)
    · cases hconflict
    · cases hnone

end EffectChain
