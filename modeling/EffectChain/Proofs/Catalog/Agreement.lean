import EffectChain.Proofs.Catalog.FailedInstall
import EffectChain.Proofs.Plan.FlagGate

/-!
# EffectChain.Proofs.Catalog.Agreement

The tables of a library against each other.

An effect that is installed is noted in the catalog, under its owner, as an operation with
its marks and as an export.  Files come and go, and may be refused half way; a library tells
in each of the tables the same about the files that are left (`Library.Keeps`).

* `Library.Managed.keeps` — what each table tells, whatever was installed and removed;
* `Library.tables_agree_iff` — the tables agree if and only if no file names an effect twice.
-/

namespace EffectChain

/-! ## the last declaration of a name -/

/-- The record of an effect on behalf of an owner. -/
def Descriptor.exported (d : Descriptor) (owner : String) : Export :=
  { space := d.space, name := d.name, flag := d.flag, owner }

theorem Descriptor.canonical_exported (d : Descriptor) (owner : String) :
    (d.exported owner).canonical = d.canonical := rfl

/-- The last declaration of a canonical name. -/
def lastOf (ds : List Descriptor) (name : String) : Option Descriptor :=
  ds.reverse.find? (·.canonical = name)

section LastOf

variable {d : Descriptor} {ds : List Descriptor} {name : String}

/-- A later descriptor of the name counts before the first. -/
theorem lastOf_cons (d : Descriptor) (ds : List Descriptor) (name : String) :
    lastOf (d :: ds) name = (lastOf ds name).or (if d.canonical = name then some d else none) := by
  unfold lastOf
  rw [List.reverse_cons, List.find?_append]
  by_cases h : d.canonical = name <;> simp [h]

theorem lastOf_eq_none_iff : lastOf ds name = none ↔ name ∉ ds.map Descriptor.canonical := by
  simp [lastOf, List.find?_eq_none]

theorem of_lastOf (h : lastOf ds name = some d) : d ∈ ds ∧ d.canonical = name :=
  ⟨List.mem_reverse.1 (List.mem_of_find?_eq_some h), by simpa using List.find?_some h⟩

/-- A name that is declared once has one declaration. -/
theorem lastOf_of_nodup (hds : (ds.map Descriptor.canonical).Nodup) (hd : d ∈ ds) :
    lastOf ds d.canonical = some d := by
  cases hlast : lastOf ds d.canonical with
  | none => exact absurd (List.mem_map_of_mem hd) (lastOf_eq_none_iff.1 hlast)
  | some d' =>
    obtain ⟨hd', hname⟩ := of_lastOf hlast
    rw [List.inj_on_of_nodup_map hds hd' hd hname]

/-- Inserting descriptors one by one leaves the last of each name. -/
theorem get?_foldl_insert_lastOf (t : Table Descriptor) :
    (ds.foldl (fun t d => t.insert d.canonical d) t).get? name =
      (lastOf ds name).or (t.get? name) := by
  induction ds generalizing t with
  | nil => rfl
  | cons d ds ih =>
    rw [List.foldl_cons, ih, lastOf_cons, Table.get?_insert, Option.or_assoc]
    by_cases h : name = d.canonical
    · simp [h]
    · simp [h, Ne.symm h]

end LastOf

/-! ## exports -/

namespace Namespaces

/-- Putting an export replaces the one of its key. -/
theorem mem_put_iff {e x : Export} {rs : List Export} (h : (rs.map Export.key).Nodup) :
    x ∈ put e rs ↔ x = e ∨ x ∈ rs ∧ x.key ≠ e.key := by
  induction rs with
  | nil => simp [put]
  | cons r rs ih =>
    obtain ⟨hr, hrs⟩ := List.nodup_cons.1 h
    have hother : ∀ x ∈ rs, x.key ≠ r.key := fun x hx heq => hr (heq ▸ List.mem_map_of_mem hx)
    unfold put
    split
    · next hkey =>
        rw [List.mem_cons, List.mem_cons]
        grind
    · next hkey =>
        rw [List.mem_cons, ih hrs, List.mem_cons]
        grind

/-- The records after those of some effects were added: the last declaration of each name,
and the records of all other names. -/
theorem mem_foldl_put {ds : List Descriptor} {owner : String} {rs : List Export} (hs : Sound rs)
    (hds : ∀ d ∈ ds, (d.exported owner).isValid = true) {x : Export} :
    x ∈ (ds.map (·.exported owner)).foldl (fun rs e => put { e with owner } rs) rs ↔
      (∃ d, lastOf ds x.canonical = some d ∧ x = d.exported owner) ∨
        x ∈ rs ∧ x.canonical ∉ ds.map Descriptor.canonical := by
  induction ds generalizing rs with
  | nil => simp [lastOf]
  | cons d ds ih =>
    obtain ⟨hd, hds⟩ := List.forall_mem_cons.1 hds
    have hkey : x ∈ rs → (x.key ≠ (d.exported owner).key ↔ x.canonical ≠ d.canonical) := by
      intro hx
      refine not_congr ⟨fun heq => ?_, Export.key_of_canonical (hs.valid x hx) hd⟩
      obtain ⟨hspace, hname⟩ := Prod.mk.inj heq
      rw [← d.canonical_exported owner, Export.canonical, Export.canonical, hspace, hname]
    have hfold := ih (hs.put hd) hds
    rw [mem_put_iff hs.nodup] at hfold
    refine hfold.trans ?_
    rw [lastOf_cons, List.map_cons, List.mem_cons]
    cases hlast : lastOf ds x.canonical with
    | none =>
      have hnew := lastOf_eq_none_iff.1 hlast
      have hown : x = d.exported owner → x.canonical = d.canonical :=
        fun heq => heq ▸ d.canonical_exported owner
      by_cases hx : d.canonical = x.canonical <;> grind
    | some d' =>
      have hold : x.canonical ∈ ds.map Descriptor.canonical := by
        obtain ⟨hd', hname⟩ := of_lastOf hlast
        exact hname ▸ List.mem_map_of_mem hd'
      simp [hold]

/-- What is registered for effects, beside what the owner had before. -/
theorem mem_register {n n' : Namespaces} (hs : Sound n.records) {f : CatalogFile} {owner : String}
    (h : n.register owner (f.exports owner) = .ok n') {x : Export} :
    x ∈ n'.records ↔ (∃ d, lastOf f.effects x.canonical = some d ∧ x = d.exported owner) ∨
      x ∈ n.records ∧ x.canonical ∉ f.effects.map Descriptor.canonical := by
  unfold register at h
  split at h
  · cases h
  · rename_i haccepted
    obtain rfl := Except.ok.inj h
    exact mem_foldl_put hs fun d hd => valid_of_accepted haccepted _ (List.mem_map_of_mem hd)

end Namespaces

/-! ## operations -/

namespace Library

variable {ops ops' : Operations}

/-- Marking adds a name. -/
theorem mem_mark {names : List String} {n x : String} :
    x ∈ Operations.mark names n ↔ x = n ∨ x ∈ names := by
  unfold Operations.mark
  split
  · rename_i h
    have hn : n ∈ names := by simpa using h
    exact ⟨.inr, fun hx => hx.elim (fun heq => heq ▸ hn) id⟩
  · rw [List.mem_append, List.mem_singleton, or_comm]

/-- Registering an operation changes the specs at its name. -/
theorem register_spec {name : String} {args : List ArgSpec}
    (h : ops.register name args = .ok ops') :
    ops' = { ops with specs := ops.specs.insert name ⟨name, args⟩ } := by
  unfold Operations.register at h
  split at h
  · cases h
  · split at h
    · cases h
    · exact (Except.ok.inj h).symm

/-- What an operation that is added is known by, and its marks. -/
theorem addOperation_spec {d : Descriptor} (h : addOperation ops d = .ok ops') :
    ∃ args, d.args = .ok args ∧
      (∀ name, ops'.lookup? name = if name = d.canonical then some ⟨name, args⟩
        else ops.lookup? name) ∧
      (∀ name, name ∈ ops'.starters ↔ d.canonical = name ∧ d.starter = true ∨ name ∈ ops.starters) ∧
      ∀ name, name ∈ ops'.passthrough ↔ d.canonical = name ∧ d.passthrough = true ∨
      name ∈ ops.passthrough := by
  unfold addOperation at h
  split at h
  · cases h
  · rename_i args hargs
    split at h
    · cases h
    · rename_i ops₁ hregister
      obtain rfl := register_spec hregister
      have hspec : ∀ name, (ops.specs.insert d.canonical ⟨d.canonical, args⟩).get? name =
          if name = d.canonical then some ⟨name, args⟩ else ops.specs.get? name := by
        intro name
        rw [Table.get?_insert]
        by_cases hname : name = d.canonical <;> simp [hname]
      refine ⟨args, hargs, ?_⟩
      rw [← Except.ok.inj h]
      cases d.starter <;> cases d.passthrough <;>
        simp [Operations.lookup?, Operations.markStarters, Operations.markPassthrough, mem_mark,
          hspec, eq_comm]

/-- Operations that are added: under each name the last one, with the marks of all. -/
theorem addOperations_spec {done : List String} {ds : List Descriptor}
    (h : addOperations ops done ds = (ops', none)) :
    (∀ d ∈ ds, ∃ args, d.args = .ok args) ∧
      (∀ name spec, ops'.lookup? name = some spec ↔
        (∃ d args, lastOf ds name = some d ∧ d.args = .ok args ∧ spec = ⟨name, args⟩) ∨
          name ∉ ds.map Descriptor.canonical ∧ ops.lookup? name = some spec) ∧
      (∀ name, name ∈ ops'.starters ↔ (∃ d ∈ ds, d.canonical = name ∧ d.starter = true) ∨
        name ∈ ops.starters) ∧
      ∀ name, name ∈ ops'.passthrough ↔
        (∃ d ∈ ds, d.canonical = name ∧ d.passthrough = true) ∨ name ∈ ops.passthrough := by
  fun_induction addOperations ops done ds with
  | case1 ops done =>
    obtain rfl := (Prod.mk.inj h).1
    simp [lastOf]
  | case2 ops done d ds ops₁ hadd ih =>
    obtain ⟨args, hargs, hspec, hstarters, hpassthrough⟩ := addOperation_spec hadd
    obtain ⟨hall, hspecs, hstarters', hpassthrough'⟩ := ih h
    refine ⟨List.forall_mem_cons.2 ⟨⟨args, hargs⟩, hall⟩, fun name spec => ?_, fun name => ?_,
      fun name => ?_⟩
    · rw [hspecs, hspec, lastOf_cons]
      cases hlast : lastOf ds name with
      | none =>
        have hnew := lastOf_eq_none_iff.1 hlast
        by_cases hname : name = d.canonical
        · subst hname
          simp [hnew, hargs, eq_comm]
        · simp [hnew, hname, Ne.symm hname]
      | some d' =>
        have hold : name ∈ ds.map Descriptor.canonical := by
          obtain ⟨hd', hname⟩ := of_lastOf hlast
          exact hname ▸ List.mem_map_of_mem hd'
        simp [hold]
    · rw [hstarters', hstarters, List.exists_mem_cons_iff, or_left_comm, or_assoc]
    · rw [hpassthrough', hpassthrough, List.exists_mem_cons_iff, or_left_comm, or_assoc]
  | case3 => cases h

/-! ## what a library keeps -/

/-- An owner installed a declaration as the last one of a name. -/
def Installed (fs : List CatalogFile) (name owner : String) (d : Descriptor) : Prop :=
  ∃ f ∈ fs, ownerName f = owner ∧ lastOf f.effects name = some d

/-- No two files have an owner or the name of an effect in common. -/
def Apart (fs : List CatalogFile) : Prop :=
  ∀ f ∈ fs, ∀ g ∈ fs, (ownerName f = ownerName g ∨
    ∃ name ∈ f.effects.map Descriptor.canonical, name ∈ g.effects.map Descriptor.canonical) → f = g

/-- The files that are left without an owner. -/
def others (owner : String) (fs : List CatalogFile) : List CatalogFile :=
  fs.filter (ownerName · ≠ owner)

/-- What each table of a library tells about the files that are installed in it. -/
structure Keeps (l : Library) (fs : List CatalogFile) : Prop where
  apart : Apart fs
  sound : Namespaces.Sound l.registry.namespaces.records
  args : ∀ f ∈ fs, ∀ d ∈ f.effects, ∃ args, d.args = .ok args
  effect : ∀ name d, l.catalog.lookup? name = some d ↔ ∃ owner, Installed fs name owner d
  owned : ∀ owner names, l.catalog.owners.get? owner = some names ↔
    ∃ f ∈ fs, ownerName f = owner ∧ names = f.effects.map Descriptor.canonical
  spec : ∀ name spec, l.registry.ops.lookup? name = some spec ↔
    ∃ owner d args, Installed fs name owner d ∧ d.args = .ok args ∧ spec = ⟨name, args⟩
  record : ∀ e, e ∈ l.registry.namespaces.records ↔
    ∃ d, Installed fs e.canonical e.owner d ∧ e = d.exported e.owner
  starter : ∀ name, name ∈ l.registry.ops.starters ↔
    ∃ f ∈ fs, ∃ d ∈ f.effects, d.canonical = name ∧ d.starter = true
  passthrough : ∀ name, name ∈ l.registry.ops.passthrough ↔
    ∃ f ∈ fs, ∃ d ∈ f.effects, d.canonical = name ∧ d.passthrough = true

section Files

variable {fs : List CatalogFile} {f : CatalogFile} {name owner : String} {d : Descriptor}

theorem mem_others : f ∈ others owner fs ↔ f ∈ fs ∧ ownerName f ≠ owner := by
  simp [others, List.mem_filter]

/-- What the other files install is what others install. -/
theorem installed_others {o : String} :
    Installed (others owner fs) name o d ↔ Installed fs name o d ∧ o ≠ owner := by
  simp only [Installed, mem_others]
  constructor
  · rintro ⟨f, ⟨hf, hne⟩, rfl, hlast⟩
    exact ⟨⟨f, hf, rfl, hlast⟩, hne⟩
  · rintro ⟨⟨f, hf, rfl, hlast⟩, hne⟩
    exact ⟨f, ⟨hf, hne⟩, rfl, hlast⟩

theorem installed_concat {o : String} : Installed (fs ++ [f]) name o d ↔
    Installed fs name o d ∨ ownerName f = o ∧ lastOf f.effects name = some d := by
  simp [Installed, or_and_right, exists_or]

theorem Installed.mem (h : Installed fs name owner d) :
    ∃ f ∈ fs, ownerName f = owner ∧ d ∈ f.effects ∧ d.canonical = name := by
  obtain ⟨f, hf, howner, hlast⟩ := h
  exact ⟨f, hf, howner, of_lastOf hlast⟩

theorem Apart.others (h : Apart fs) (owner : String) : Apart (others owner fs) :=
  fun f hf g hg => h f (mem_others.1 hf).1 g (mem_others.1 hg).1

/-- The effects with the names of a file are those of its owner. -/
theorem Apart.mem_names_iff (h : Apart fs) (hf : f ∈ fs) {g : CatalogFile} (hg : g ∈ fs)
    (hd : d ∈ g.effects) :
    d.canonical ∈ f.effects.map Descriptor.canonical ↔ ownerName g = ownerName f := by
  have hname : d.canonical ∈ g.effects.map Descriptor.canonical := List.mem_map_of_mem hd
  constructor
  · intro hmem
    rw [h g hg f hf (.inr ⟨_, hname, hmem⟩)]
  · intro howner
    rwa [← h g hg f hf (.inl howner)]

theorem Apart.installed_iff (h : Apart fs) (hf : f ∈ fs) (hinstalled : Installed fs name owner d) :
    name ∈ f.effects.map Descriptor.canonical ↔ owner = ownerName f := by
  obtain ⟨g, hg, rfl, hd, rfl⟩ := hinstalled.mem
  exact h.mem_names_iff hf hg hd

/-- Among files apart a name is installed once. -/
theorem Apart.installed_unique (h : Apart fs) {o : String} {d' : Descriptor}
    (hd : Installed fs name owner d) (hd' : Installed fs name o d') : owner = o ∧ d = d' := by
  obtain ⟨f, hf, rfl, hlast⟩ := hd
  obtain ⟨g, hg, rfl, hlast'⟩ := hd'
  have hname : ∀ {ds : List Descriptor} {d : Descriptor}, lastOf ds name = some d →
      name ∈ ds.map Descriptor.canonical := fun hlast => by
    obtain ⟨hd, rfl⟩ := of_lastOf hlast
    exact List.mem_map_of_mem hd
  obtain rfl := h f hf g hg (.inr ⟨name, hname hlast, hname hlast'⟩)
  exact ⟨rfl, Option.some.inj (hlast.symm.trans hlast')⟩

/-- The marks that are left without those of a file are the ones of the other files. -/
theorem Apart.mark_others_iff (h : Apart fs) (hf : f ∈ fs) {mark : Descriptor → Bool}
    {names : List String}
    (hnames : ∀ name, name ∈ names ↔ ∃ g ∈ fs, ∃ d ∈ g.effects, d.canonical = name ∧ mark d = true)
    (name : String) :
    name ∈ names.filter (· ∉ f.effects.map Descriptor.canonical) ↔
      ∃ g ∈ Library.others (ownerName f) fs, ∃ d ∈ g.effects, d.canonical = name ∧
      mark d = true := by
  rw [List.mem_filter, hnames, decide_eq_true_eq]
  constructor
  · rintro ⟨⟨g, hg, d, hd, rfl, hmark⟩, hother⟩
    rw [h.mem_names_iff hf hg hd] at hother
    exact ⟨g, mem_others.2 ⟨hg, hother⟩, d, hd, rfl, hmark⟩
  · rintro ⟨g, hg, d, hd, rfl, hmark⟩
    obtain ⟨hg, hother⟩ := mem_others.1 hg
    rw [h.mem_names_iff hf hg hd]
    exact ⟨⟨g, hg, d, hd, rfl, hmark⟩, hother⟩

/-- A file with a new owner and new names keeps the files apart. -/
theorem Apart.concat (h : Apart fs) (howner : ∀ g ∈ fs, ownerName g ≠ ownerName f)
    (hnames : ∀ g ∈ fs, ∀ name ∈ f.effects.map Descriptor.canonical,
      name ∉ g.effects.map Descriptor.canonical) :
    Apart (fs ++ [f]) := by
  intro a ha b hb hcommon
  rw [List.mem_append, List.mem_singleton] at ha hb
  rcases ha with ha | rfl <;> rcases hb with hb | rfl
  · exact h a ha b hb hcommon
  · rcases hcommon with heq | ⟨name, hname, hmem⟩
    · exact absurd heq (howner a ha)
    · exact absurd hname (hnames a ha name hmem)
  · rcases hcommon with heq | ⟨name, hname, hmem⟩
    · exact absurd heq.symm (howner b hb)
    · exact absurd hmem (hnames b hb name hname)
  · rfl

end Files

/-! ## what comes and goes -/

variable {l l' : Library} {fs : List CatalogFile}

/-- An empty library keeps no files. -/
theorem Keeps.empty : ({} : Library).Keeps [] where
  apart := by simp [Apart]
  sound := ⟨by simp, by simp⟩
  args := by simp
  effect := by simp [Catalog.lookup?, Installed]
  owned := by simp
  spec := by simp [Operations.lookup?, Installed]
  record := by simp [Installed]
  starter := by simp
  passthrough := by simp

/-- What is left when a file is removed whose effects are listed. -/
theorem uninstall_listed {owner : String} {names : List String}
    (h : l.catalog.owners.get? owner = some names) :
    (l.uninstall owner).1 =
      { registry := { l.registry with
          namespaces := l.registry.namespaces.unregister owner
          ops := l.registry.ops.without names }
        catalog := {
          effects := names.foldl Table.erase l.catalog.effects
          owners := l.catalog.owners.erase owner
          generation := l.catalog.generation + 1 } } := by
  simp [Library.uninstall, h, Operations.foldl_unregister]

/-- A file that is removed takes with it all that was known of it, and nothing else. -/
theorem Keeps.uninstall (h : l.Keeps fs) (owner : String) :
    (l.uninstall owner).1.Keeps (others owner fs) := by
  cases howned : l.catalog.owners.get? owner with
  | none =>
    have hall : ∀ f ∈ fs, ownerName f ≠ owner := by
      intro f hf heq
      rw [(h.owned owner _).2 ⟨f, hf, heq, rfl⟩] at howned
      cases howned
    have hsame : others owner fs = fs := List.filter_eq_self.2 fun f hf => by simpa using hall f hf
    simpa [Library.uninstall, howned, hsame] using h
  | some names =>
    obtain ⟨f, hf, rfl, rfl⟩ := (h.owned owner names).1 howned
    have hinstalled : ∀ {name o d}, Installed fs name o d →
        (name ∈ f.effects.map Descriptor.canonical ↔ o = ownerName f) := h.apart.installed_iff hf
    rw [uninstall_listed howned]
    refine ⟨h.apart.others _, h.sound.filter _, fun g hg => h.args g (mem_others.1 hg).1,
      fun name d => ?_, fun o names => ?_, fun name spec => ?_, fun e =>
        ?_, h.apart.mark_others_iff hf h.starter,
      h.apart.mark_others_iff hf h.passthrough⟩
    · rw [Catalog.lookup?, Table.get?_foldl_erase]
      split
      · rename_i hname
        refine ⟨by simp, ?_⟩
        rintro ⟨o, hd⟩
        obtain ⟨hd, hother⟩ := installed_others.1 hd
        exact absurd ((hinstalled hd).1 hname) hother
      · rename_i hname
        refine (h.effect name d).trans (exists_congr fun o => ?_)
        rw [installed_others]
        exact ⟨fun hd => ⟨hd, fun heq => hname ((hinstalled hd).2 heq)⟩, And.left⟩
    · rw [Table.get?_erase]
      split
      · rename_i ho
        refine ⟨by simp, ?_⟩
        rintro ⟨g, hg, rfl, -⟩
        exact absurd ho (mem_others.1 hg).2
      · rename_i ho
        rw [h.owned]
        simp only [mem_others]
        grind
    · rw [Operations.lookup?, Operations.without, Table.get?_filter, Option.filter_eq_some_iff,
        decide_eq_true_eq]
      constructor
      · rintro ⟨hspec, hname⟩
        obtain ⟨o, d, args, hd, hargs, rfl⟩ := (h.spec name spec).1 hspec
        exact ⟨o, d, args, installed_others.2 ⟨hd, fun heq => hname ((hinstalled hd).2 heq)⟩,
          hargs, rfl⟩
      · rintro ⟨o, d, args, hd, hargs, rfl⟩
        obtain ⟨hd, hother⟩ := installed_others.1 hd
        exact ⟨(h.spec name _).2 ⟨o, d, args, hd, hargs, rfl⟩, fun hname =>
          hother ((hinstalled hd).1 hname)⟩
    · simp only [Namespaces.unregister, List.mem_filter, h.record, installed_others,
        decide_eq_true_eq]
      grind

/-- A file that is added makes itself known, and all else stays. -/
theorem Keeps.install (h : l.Keeps fs) {f : CatalogFile}
    (howner : ∀ g ∈ fs, ownerName g ≠ ownerName f)
    (hnames : ∀ g ∈ fs, ∀ name ∈ f.effects.map Descriptor.canonical,
      name ∉ g.effects.map Descriptor.canonical)
    {namespaces : Namespaces} {ops : Operations} {enums : EnumTree} {generation : Nat}
    (hexports : l.registry.namespaces.register (ownerName f) (f.exports (ownerName f)) =
      .ok namespaces)
    (hops : addOperations l.registry.ops [] f.effects = (ops, none)) :
    Keeps
      { registry := { namespaces, ops, enums }
        catalog := {
          effects := f.effects.foldl (fun t d => t.insert d.canonical d) l.catalog.effects
          owners := l.catalog.owners.insert (ownerName f) (f.effects.map Descriptor.canonical)
          generation } } (fs ++ [f]) := by
  obtain ⟨hargs, hspecs, hstarters, hpassthrough⟩ := addOperations_spec hops
  -- no name of the file was known before
  have hnew : ∀ {name o d}, Installed fs name o d → name ∉ f.effects.map Descriptor.canonical := by
    intro name o d hd hname
    obtain ⟨g, hg, -, hdg, rfl⟩ := hd.mem
    exact hnames g hg _ hname (List.mem_map_of_mem hdg)
  refine ⟨?_, h.sound.register hexports, ?_, fun name d => ?_, fun o names => ?_,
    fun name spec => ?_, fun e => ?_, fun name => ?_, fun name => ?_⟩
  · exact h.apart.concat howner hnames
  · intro g hg
    rcases List.mem_append.1 hg with hg | hg
    · exact h.args g hg
    · exact List.mem_singleton.1 hg ▸ hargs
  · rw [Catalog.lookup?, get?_foldl_insert_lastOf, Option.or_eq_some_iff]
    have hold := h.effect name d
    rw [Catalog.lookup?] at hold
    rw [hold, lastOf_eq_none_iff]
    simp only [installed_concat, exists_or]
    constructor
    · rintro (hlast | ⟨-, hd⟩)
      · exact .inr ⟨_, rfl, hlast⟩
      · exact .inl hd
    · rintro (⟨o, hd⟩ | ⟨-, -, hlast⟩)
      · exact .inr ⟨hnew hd, o, hd⟩
      · exact .inl hlast
  · rw [Table.get?_insert]
    simp only [List.mem_append, List.mem_singleton, or_and_right, exists_or, exists_eq_left]
    split
    · rename_i ho
      constructor
      · exact fun heq => .inr ⟨ho.symm, (Option.some.inj heq).symm⟩
      · rintro (⟨g, hg, heq, -⟩ | ⟨-, rfl⟩)
        · exact absurd (heq.trans ho) (howner g hg)
        · rfl
    · rename_i ho
      rw [h.owned]
      exact ⟨.inl, fun hcases => hcases.elim id fun heq => absurd heq.1.symm ho⟩
  · rw [hspecs, h.spec]
    simp only [installed_concat, or_and_right, exists_or]
    constructor
    · rintro (⟨d, args, hlast, hrest⟩ | ⟨-, hold⟩)
      · exact .inr ⟨_, d, args, ⟨rfl, hlast⟩, hrest⟩
      · exact .inl hold
    · rintro (⟨o, d, args, hd, hrest⟩ | ⟨-, d, args, ⟨-, hlast⟩, hrest⟩)
      · exact .inr ⟨hnew hd, o, d, args, hd, hrest⟩
      · exact .inl ⟨d, args, hlast, hrest⟩
  · rw [Namespaces.mem_register h.sound hexports, h.record]
    simp only [installed_concat, or_and_right, exists_or]
    constructor
    · rintro (⟨d, hlast, rfl⟩ | ⟨hold, -⟩)
      · exact .inr ⟨d, ⟨rfl, hlast⟩, rfl⟩
      · exact .inl hold
    · rintro (⟨d, hd, heq⟩ | ⟨d, ⟨ho, hlast⟩, heq⟩)
      · exact .inr ⟨⟨d, hd, heq⟩, hnew hd⟩
      · exact .inl ⟨d, hlast, ho ▸ heq⟩
  · rw [hstarters, h.starter]
    simp only [List.mem_append, List.mem_singleton, or_and_right, exists_or, exists_eq_left]
    exact or_comm
  · rw [hpassthrough, h.passthrough]
    simp only [List.mem_append, List.mem_singleton, or_and_right, exists_or, exists_eq_left]
    exact or_comm

/-- Without a conflict the names of a file are those of no other owner. -/
theorem Keeps.free (h : l.Keeps fs) {owner : String} {f g : CatalogFile}
    (hfree : l.conflict? owner f = none) (hg : g ∈ fs) (hother : ownerName g ≠ owner)
    {name : String} (hname : name ∈ f.effects.map Descriptor.canonical) :
    name ∉ g.effects.map Descriptor.canonical := by
  intro hmem
  obtain ⟨d, hd, rfl⟩ := List.mem_map.1 hname
  have hnone := List.findSome?_eq_none_iff.1 hfree d hd
  -- the owner of the name is the one of the file
  have howner : l.catalog.ownerOf? d.canonical = some (ownerName g) := by
    have howned : (ownerName g, g.effects.map Descriptor.canonical) ∈ l.catalog.owners.entries :=
      Table.mem_entries_iff.2 ((h.owned _ _).2 ⟨g, hg, rfl, rfl⟩)
    unfold Catalog.ownerOf?
    cases hfind : l.catalog.owners.entries.find? (·.2.contains d.canonical) with
    | none =>
      have hnot := List.find?_eq_none.1 hfind _ howned
      simp [hmem] at hnot
    | some e =>
      obtain ⟨o, names⟩ := e
      obtain ⟨g', hg', rfl, rfl⟩ :=
        (h.owned o names).1 (Table.mem_entries_iff.1 (List.mem_of_find?_eq_some hfind))
      have hmem' : d.canonical ∈ g'.effects.map Descriptor.canonical := by
        simpa using List.find?_some hfind
      rw [h.apart g hg g' hg' (.inr ⟨_, hmem, hmem'⟩)]
      rfl
  simp [howner, hother] at hnone

/-! ## every library -/

/-- The libraries that files make by coming and going, with the files that are left. -/
inductive Managed : Library → List CatalogFile → Prop
  | empty : Managed {} []
  /-- A file takes the place of what its owner had. -/
  | installed {l : Library} {fs : List CatalogFile} (h : Managed l fs) {f : CatalogFile}
      (hinstall : (l.install f).2 = none) : Managed (l.install f).1 (others (ownerName f) fs ++ [f])
  /-- A file with an effect of another owner changes nothing. -/
  | conflict {l : Library} {fs : List CatalogFile} (h : Managed l fs) {f : CatalogFile}
      (hconflict : (l.conflict? (ownerName f) f).isSome = true) : Managed (l.install f).1 fs
  /-- A file that is refused for another reason has removed what its owner had. -/
  | refused {l : Library} {fs : List CatalogFile} (h : Managed l fs) {f : CatalogFile}
      (hfree : l.conflict? (ownerName f) f = none) (hrefused : (l.install f).2.isSome = true) :
      Managed (l.install f).1 (others (ownerName f) fs)
  | uninstall {l : Library} {fs : List CatalogFile} (h : Managed l fs) (owner : String) :
      Managed (l.uninstall owner).1 (others owner fs)

/-- Any file can come, whether it is accepted or not. -/
theorem Managed.install (h : Managed l fs) (f : CatalogFile) :
    ∃ left, Managed (l.install f).1 left := by
  cases hconflict : l.conflict? (ownerName f) f with
  | some err => exact ⟨fs, .conflict h (by rw [hconflict]; rfl)⟩
  | none =>
    cases hinstall : (l.install f).2 with
    | none => exact ⟨_, .installed h hinstall⟩
    | some err => exact ⟨_, .refused h hconflict (by rw [hinstall]; rfl)⟩

/-- What is left of a file that is refused without a conflict. -/
theorem Keeps.refused (h : l.Keeps fs) {f : CatalogFile}
    (hfree : l.conflict? (ownerName f) f = none) (hrefused : (l.install f).2.isSome = true) :
    (l.install f).1 = (l.uninstall (ownerName f)).1 := by
  obtain ⟨err, herr⟩ := Option.isSome_iff_exists.1 hrefused
  have hleft := h.uninstall (ownerName f)
  have hinstall : l.install f = ((l.install f).1, some err) := Prod.ext rfl herr
  rw [install_refused hinstall]
  unfold afterRefusal
  dsimp only
  rw [if_neg (by simp [hfree])]
  generalize hl : (l.uninstall (ownerName f)).1 = l₀ at hleft
  have hnamespaces : l₀.registry.namespaces.unregister (ownerName f) = l₀.registry.namespaces := by
    rw [Namespaces.unregister_eq_self_iff]
    intro r hr
    obtain ⟨d, hd, -⟩ := (hleft.record r).1 hr
    exact (installed_others.1 hd).2
  have hops : l₀.registry.ops.without (operationsOf f) = l₀.registry.ops := by
    rw [Operations.without_eq_self_iff]
    intro name hname
    have hmem : name ∈ f.effects.map Descriptor.canonical := by
      obtain ⟨d, hd, rfl⟩ := List.mem_map.1 hname
      exact List.mem_map_of_mem ((List.takeWhile_sublist _).subset hd)
    have hnot : ∀ g ∈ others (ownerName f) fs, ∀ d ∈ g.effects, d.canonical ≠ name := by
      rintro g hg d hd rfl
      obtain ⟨hg, hother⟩ := mem_others.1 hg
      exact h.free hfree hg hother hmem (List.mem_map_of_mem hd)
    refine ⟨?_, ?_, ?_⟩
    · refine Option.eq_none_iff_forall_ne_some.2 fun spec hspec => ?_
      obtain ⟨o, d, args, hd, -⟩ := (hleft.spec name spec).1 hspec
      obtain ⟨g, hg, -, hd, heq⟩ := hd.mem
      exact hnot g hg d hd heq
    · rw [hleft.starter]
      rintro ⟨g, hg, d, hd, heq, -⟩
      exact hnot g hg d hd heq
    · rw [hleft.passthrough]
      rintro ⟨g, hg, d, hd, heq, -⟩
      exact hnot g hg d hd heq
  split
  · rfl
  · rw [hnamespaces, hops]

/-- A file that is accepted is known in place of what its owner had. -/
theorem Keeps.accepted (h : l.Keeps fs) {f : CatalogFile} (hinstall : (l.install f).2 = none) :
    (l.install f).1.Keeps (others (ownerName f) fs ++ [f]) := by
  obtain ⟨hfree, namespaces, ops, enums, hexports, hops, hl⟩ := install_accepted hinstall
  rw [hl]
  refine (h.uninstall (ownerName f)).install (fun g hg => (mem_others.1 hg).2)
    (fun g hg name hname => ?_)
    hexports hops
  obtain ⟨hg, hother⟩ := mem_others.1 hg
  exact h.free hfree hg hother hname

/-- A file with an effect of another owner changes nothing. -/
theorem install_conflict {f : CatalogFile}
    (hconflict : (l.conflict? (ownerName f) f).isSome = true) :
    (l.install f).1 = l := by
  obtain ⟨err, herr⟩ := Option.isSome_iff_exists.1 hconflict
  simp [Library.install, herr]

/-- Whatever came and went, the tables tell the same about the files that are left. -/
theorem Managed.keeps (h : Managed l fs) : l.Keeps fs := by
  induction h with
  | empty => exact .empty
  | installed _ hinstall ih => exact ih.accepted hinstall
  | conflict _ hconflict ih => rwa [install_conflict hconflict]
  | refused _ hfree hrefused ih =>
    rw [ih.refused hfree hrefused]
    exact ih.uninstall _
  | uninstall _ owner ih => exact ih.uninstall owner

/-! ## agreement -/

/-- The effects that are gone once an owner's file is removed. -/
def removed (l : Library) (owner : String) : List String :=
  l.catalog.names.filter fun name => !(l.uninstall owner).1.catalog.effects.contains name

/-- All that is known of an effect is what its declaration and its file say. -/
structure Shows (l : Library) (f : CatalogFile) (d : Descriptor) : Prop where
  spec : ∃ args, d.args = .ok args ∧ l.registry.ops.lookup? d.canonical = some ⟨d.canonical, args⟩
  record : ∀ e, e ∈ l.registry.namespaces.records ∧ e.canonical = d.canonical ↔
    e = d.exported (ownerName f)
  starter : l.registry.ops.isStarter d.canonical = d.starter
  passthrough : l.registry.ops.isPassthrough d.canonical = d.passthrough
  /-- The name is listed once, under the owner of the file. -/
  listed : ∃ names, l.catalog.owners.get? (ownerName f) = some names ∧ names.count d.canonical = 1
  alone : ∀ owner names, l.catalog.owners.get? owner = some names → d.canonical ∈ names →
    owner = ownerName f

/-- The tables of a library tell the same. -/
structure Agrees (l : Library) (fs : List CatalogFile) : Prop where
  operation : ∀ name, (l.registry.ops.lookup? name).isSome = (l.catalog.lookup? name).isSome
  exported : ∀ name,
    (∃ e ∈ l.registry.namespaces.records, e.canonical = name) ↔
      (l.catalog.lookup? name).isSome = true
  shows : ∀ name d, l.catalog.lookup? name = some d → d.canonical = name ∧ ∃ f ∈ fs, d ∈ f.effects ∧
    l.Shows f d
  /-- Nothing is listed or marked that is not installed. -/
  listed : ∀ owner names, l.catalog.owners.get? owner = some names → ∀ name ∈ names,
    (l.catalog.lookup? name).isSome = true
  marked : ∀ name, l.registry.ops.isStarter name = true ∨ l.registry.ops.isPassthrough name = true →
    (l.catalog.lookup? name).isSome = true
  /-- The number that comes with a removal is the number of effects that are gone. -/
  counted : ∀ owner, (l.uninstall owner).2 = (l.removed owner).length

section Agreement

variable {f : CatalogFile} {d : Descriptor} {name owner : String}

/-- A name is found when one of the kept files has it. -/
theorem Keeps.lookup?_isSome (h : l.Keeps fs) (name : String) :
    (l.catalog.lookup? name).isSome = true ↔ ∃ f ∈ fs,
    name ∈ f.effects.map Descriptor.canonical := by
  rw [Option.isSome_iff_exists]
  simp only [h.effect]
  constructor
  · rintro ⟨d, o, hinstalled⟩
    obtain ⟨f, hf, -, hd, rfl⟩ := hinstalled.mem
    exact ⟨f, hf, List.mem_map_of_mem hd⟩
  · rintro ⟨f, hf, hname⟩
    obtain ⟨d, hd⟩ := Option.ne_none_iff_exists'.1 fun hnone => (lastOf_eq_none_iff.1 hnone) hname
    exact ⟨d, _, f, hf, rfl, hd⟩

/-- The effects that a removal takes are those of the file. -/
theorem Keeps.mem_removed (h : l.Keeps fs) :
    name ∈ l.removed owner ↔ ∃ f ∈ fs, ownerName f = owner ∧
    name ∈ f.effects.map Descriptor.canonical := by
  have hleft := (h.uninstall owner).lookup?_isSome name
  have hall := h.lookup?_isSome name
  rw [Catalog.lookup?, ← Table.contains, ← Table.mem_keys_iff] at hall
  rw [Catalog.lookup?, ← Table.contains] at hleft
  rw [removed, List.mem_filter, Catalog.names, hall, Bool.not_eq_true', ← Bool.not_eq_true, hleft]
  constructor
  · rintro ⟨⟨f, hf, hname⟩, hgone⟩
    by_contra hnot
    exact hgone ⟨f, mem_others.2 ⟨hf, fun howner => hnot ⟨f, hf, howner, hname⟩⟩, hname⟩
  · rintro ⟨f, hf, howner, hname⟩
    refine ⟨⟨f, hf, hname⟩, ?_⟩
    rintro ⟨g, hg, hname'⟩
    obtain ⟨hg, hother⟩ := mem_others.1 hg
    exact hother (h.apart f hf g hg (.inr ⟨name, hname, hname'⟩) ▸ howner)

theorem Keeps.uninstall_number (h : l.Keeps fs) (hf : f ∈ fs) :
    (l.uninstall (ownerName f)).2 = f.effects.length := by
  have howned := (h.owned (ownerName f) _).2 ⟨f, hf, rfl, rfl⟩
  simp [Library.uninstall, howned]

/-- Without a name that is given twice a removal counts the effects that are gone. -/
theorem Keeps.counted (h : l.Keeps fs)
    (hnodup : ∀ f ∈ fs, (f.effects.map Descriptor.canonical).Nodup) (owner : String) :
    (l.uninstall owner).2 = (l.removed owner).length := by
  cases howned : l.catalog.owners.get? owner with
  | none =>
    have hnone : l.removed owner = [] := by
      refine List.eq_nil_iff_forall_not_mem.2 fun name hname => ?_
      obtain ⟨f, hf, rfl, -⟩ := h.mem_removed.1 hname
      rw [(h.owned _ _).2 ⟨f, hf, rfl, rfl⟩] at howned
      cases howned
    rw [hnone]
    simp [Library.uninstall, howned]
  | some names =>
    obtain ⟨f, hf, rfl, rfl⟩ := (h.owned owner names).1 howned
    have hremoved : (l.removed (ownerName f)).Nodup := (Table.nodup_keys _).filter _
    have hperm : (l.removed (ownerName f)).Perm (f.effects.map Descriptor.canonical) := by
      refine (List.perm_ext_iff_of_nodup hremoved (hnodup f hf)).2 fun name => ?_
      rw [h.mem_removed]
      constructor
      · rintro ⟨g, hg, howner, hname⟩
        exact h.apart g hg f hf (.inl howner) ▸ hname
      · exact fun hname => ⟨f, hf, rfl, hname⟩
    rw [h.uninstall_number hf, hperm.length_eq, List.length_map]

/-- What is known of an effect of a file that names it once. -/
theorem Keeps.shows (h : l.Keeps fs) (hf : f ∈ fs)
    (hnodup : (f.effects.map Descriptor.canonical).Nodup) (hd : d ∈ f.effects) : l.Shows f d := by
  have hinstalled : Installed fs d.canonical (ownerName f) d :=
    ⟨f, hf, rfl, lastOf_of_nodup hnodup hd⟩
  have hname : d.canonical ∈ f.effects.map Descriptor.canonical := List.mem_map_of_mem hd
  have hmark : ∀ (mark : Descriptor → Bool) (names : List String),
      (∀ name, name ∈ names ↔ ∃ g ∈ fs, ∃ d ∈ g.effects, d.canonical = name ∧ mark d = true) →
      names.contains d.canonical = mark d := by
    intro mark names hnames
    rw [Bool.eq_iff_iff, List.contains_iff_mem, hnames]
    constructor
    · rintro ⟨g, hg, d', hd', heq, hmark⟩
      have hname' : d.canonical ∈ g.effects.map Descriptor.canonical :=
        heq ▸ List.mem_map_of_mem hd'
      obtain rfl := h.apart f hf g hg (.inr ⟨_, hname, hname'⟩)
      rwa [← List.inj_on_of_nodup_map hnodup hd' hd heq]
    · exact fun hmark => ⟨f, hf, d, hd, rfl, hmark⟩
  obtain ⟨args, hargs⟩ := h.args f hf d hd
  refine ⟨⟨args, hargs, (h.spec _ _).2 ⟨_, d, args, hinstalled, hargs, rfl⟩⟩, fun e => ⟨?_, ?_⟩,
    hmark (·.starter) _ h.starter, hmark (·.passthrough) _ h.passthrough,
    ⟨_, (h.owned _ _).2 ⟨f, hf, rfl, rfl⟩, List.count_eq_one_of_mem hnodup hname⟩,
      fun owner names howned hmem => ?_⟩
  · rintro ⟨he, heq⟩
    obtain ⟨d', hd', hrecord⟩ := (h.record e).1 he
    rw [heq] at hd'
    obtain ⟨howner, rfl⟩ := h.apart.installed_unique hinstalled hd'
    rw [hrecord, howner]
  · rintro rfl
    exact ⟨(h.record _).2 ⟨d, hinstalled, rfl⟩, rfl⟩
  · obtain ⟨g, hg, rfl, rfl⟩ := (h.owned owner names).1 howned
    rw [h.apart g hg f hf (.inr ⟨_, hmem, hname⟩)]

/-- A library that keeps its files agrees with them, if no file names an effect twice. -/
theorem Keeps.agrees (h : l.Keeps fs)
    (hnodup : ∀ f ∈ fs, (f.effects.map Descriptor.canonical).Nodup) :
    l.Agrees fs where
  operation name := by
    rw [Bool.eq_iff_iff, h.lookup?_isSome, Option.isSome_iff_exists]
    simp only [h.spec]
    constructor
    · rintro ⟨-, o, d, args, hinstalled, -, rfl⟩
      obtain ⟨f, hf, -, hd, rfl⟩ := hinstalled.mem
      exact ⟨f, hf, List.mem_map_of_mem hd⟩
    · rintro ⟨f, hf, hname⟩
      obtain ⟨d, hd⟩ := Option.ne_none_iff_exists'.1 fun hnone => (lastOf_eq_none_iff.1 hnone) hname
      obtain ⟨args, hargs⟩ := h.args f hf d (of_lastOf hd).1
      exact ⟨_, _, d, args, ⟨f, hf, rfl, hd⟩, hargs, rfl⟩
  exported name := by
    rw [h.lookup?_isSome]
    constructor
    · rintro ⟨e, he, rfl⟩
      obtain ⟨d, hinstalled, -⟩ := (h.record e).1 he
      obtain ⟨f, hf, -, hd, heq⟩ := hinstalled.mem
      exact ⟨f, hf, heq ▸ List.mem_map_of_mem hd⟩
    · rintro ⟨f, hf, hname⟩
      obtain ⟨d, hd, rfl⟩ := List.mem_map.1 hname
      exact ⟨_, ((h.shows hf (hnodup f hf) hd).record _).2 rfl⟩
  shows name d hlookup := by
    obtain ⟨o, hinstalled⟩ := (h.effect name d).1 hlookup
    obtain ⟨f, hf, -, hd, heq⟩ := hinstalled.mem
    exact ⟨heq, f, hf, hd, h.shows hf (hnodup f hf) hd⟩
  listed owner names howned name hname := by
    obtain ⟨f, hf, -, rfl⟩ := (h.owned owner names).1 howned
    exact (h.lookup?_isSome name).2 ⟨f, hf, hname⟩
  marked name hmarked := by
    rw [Operations.isStarter, Operations.isPassthrough, List.contains_iff_mem,
      List.contains_iff_mem, h.starter, h.passthrough] at hmarked
    rw [h.lookup?_isSome]
    rcases hmarked with ⟨f, hf, d, hd, rfl, -⟩ | ⟨f, hf, d, hd, rfl, -⟩ <;>
      exact ⟨f, hf, List.mem_map_of_mem hd⟩
  counted := h.counted hnodup

/-- A name that its file gives twice is listed twice. -/
theorem Agrees.nodup (h : l.Keeps fs) (hagrees : l.Agrees fs) (hf : f ∈ fs) :
    (f.effects.map Descriptor.canonical).Nodup := by
  refine List.nodup_iff_count_le_one.2 fun name => ?_
  by_cases hname : name ∈ f.effects.map Descriptor.canonical
  · obtain ⟨d, hlookup⟩ := Option.isSome_iff_exists.1 ((h.lookup?_isSome name).2 ⟨f, hf, hname⟩)
    obtain ⟨rfl, g, hg, hd, hshows⟩ := hagrees.shows name d hlookup
    obtain rfl := h.apart f hf g hg (.inr ⟨_, hname, List.mem_map_of_mem hd⟩)
    obtain ⟨names, hnames, hcount⟩ := hshows.listed
    obtain rfl := Option.some.inj (((h.owned _ _).2 ⟨f, hf, rfl, rfl⟩).symm.trans hnames)
    exact hcount.le
  · rw [List.count_eq_zero_of_not_mem hname]
    exact Nat.zero_le 1

end Agreement

/-- Whatever was installed, refused and removed, each table tells what the files that are
left say, and a removal comes with the number of declarations of its file.  The tables agree
if and only if no file names an effect twice. -/
theorem tables_agree_iff (h : Managed l fs) :
    l.Keeps fs ∧ (∀ f ∈ fs, (l.uninstall (ownerName f)).2 = f.effects.length) ∧
      (l.Agrees fs ↔ ∀ f ∈ fs, (f.effects.map Descriptor.canonical).Nodup) := by
  have hkeeps := h.keeps
  refine ⟨hkeeps, fun f hf => hkeeps.uninstall_number hf, fun hagrees f hf => ?_, hkeeps.agrees⟩
  exact hagrees.nodup hkeeps hf

/-! ## a file that names an effect twice -/

/-- The file of an effect that begins a chain, and declares it again as one that does not. -/
def glowTwice : CatalogFile := { glowFile with effects := [glow, { glow with starter := false }] }

/-- The library with the file installed: the later declaration stands, and the mark of the
earlier one. -/
def glowingTwice : Library where
  registry.namespaces.records := glowFile.exports "glow.yaml"
  registry.ops := { specs := .ofList [("fx.glow", { name := "fx.glow" })], starters := ["fx.glow"] }
  catalog.effects := .ofList [("fx.glow", { glow with starter := false })]
  catalog.owners := .ofList [("glow.yaml", ["fx.glow", "fx.glow"])]
  catalog.generation := 1

/-- A file that names one effect twice is installed all the same. -/
theorem install_glowTwice : ({} : Library).install glowTwice = (glowingTwice, none) := by
  have hmerge : (({} : Library).uninstall (ownerName glowTwice)).1.registry.enums.merge
      glowTwice.enums =
      .ok EnumTree.empty := by
    change EnumTree.empty.merge glowTwice.enums = _
    simp [EnumTree.merge, glowTwice, glowFile, EnumTree.entriesInOrder, Document.sortEntries,
      EnumTree.overlayEntries]
  have hvalid : ({ space := "fx", name := "glow", owner := "glow.yaml" } : Export).isValid =
      true := by
    simp [Export.isValid]
  have haccepted : ({} : Namespaces).refusal? "glow.yaml" (glowTwice.exports "glow.yaml") =
      none := by
    simp [Namespaces.refusal?, CatalogFile.exports, glowTwice, glowFile, glow, hvalid,
      Namespaces.find?]
  have hexports : ({} : Namespaces).register "glow.yaml" (glowTwice.exports "glow.yaml") =
      .ok { records := glowFile.exports "glow.yaml" } := by
    rw [Namespaces.register, haccepted]
    rfl
  rw [install_of_operations (l := {}) (f := glowTwice) rfl hexports rfl, hmerge]
  rfl

/-- One effect is installed, and two are said to be removed; it is marked as one that begins
a chain, which its declaration denies. -/
theorem glowTwice_disagrees : ({} : Library).install glowTwice = (glowingTwice, none) ∧
    ¬ glowingTwice.Agrees [glowTwice] ∧
    (glowingTwice.uninstall "glow.yaml").2 = 2 ∧ glowingTwice.removed "glow.yaml" = ["fx.glow"] ∧
    glowingTwice.registry.ops.isStarter "fx.glow" = true ∧
    (glowingTwice.catalog.lookup? "fx.glow").map (·.starter) = some false := by
  have hmanaged : Managed glowingTwice [glowTwice] := by
    have hinstalled := Managed.installed (f := glowTwice) .empty (by rw [install_glowTwice])
    rw [install_glowTwice] at hinstalled
    exact hinstalled
  obtain ⟨-, hnumber, hagrees⟩ := tables_agree_iff hmanaged
  refine ⟨install_glowTwice, fun h => ?_, hnumber glowTwice List.mem_cons_self, by decide +kernel,
    by decide +kernel, by decide +kernel⟩
  exact absurd (hagrees.1 h glowTwice List.mem_cons_self) (by decide +kernel)

end Library

end EffectChain
