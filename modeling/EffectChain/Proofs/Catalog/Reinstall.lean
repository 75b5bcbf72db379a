import EffectChain.Proofs.Catalog.Agreement
import EffectChain.Proofs.Plan.Lookups
import EffectChain.Proofs.Registry.Overlay
import EffectChain.Proofs.Registry.Reordered

/-!
# EffectChain.Proofs.Catalog.Reinstall

A file that is installed again.

A file takes the place of itself: its effects are removed, and it is accepted as it was before.
It differs from the library before it in two things.  Its records stand behind all others, and
its constants lie over those that other files have merged since.

* `Library.InUse.holds` — a file that came and is left is installed, whatever else came and went;
* `reinstall_resolves_iff` — what names and programs come to when an installed file is installed
  again.
-/

namespace EffectChain

namespace Library

/-! ## what is installed again -/

/-- Effects that are all operations are added to any operations. -/
theorem addOperations_of_operations {ds : List Descriptor} (h : ∀ d ∈ ds, isOperation d = true)
    (ops : Operations) (done : List String) : ∃ ops', addOperations ops done ds = (ops', none) := by
  induction ds generalizing ops done with
  | nil => exact ⟨ops, rfl⟩
  | cons d ds ih =>
    obtain ⟨hd, hds⟩ := List.forall_mem_cons.1 h
    rw [addOperations]
    cases hadd : addOperation ops d with
    | error e => simp [addOperation_error hadd] at hd
    | ok ops₁ => exact ih hds ops₁ _

/-- A file that was accepted once has valid names, operations for effects and numbers for
constants. -/
theorem of_accepted {l : Library} {f : CatalogFile} (h : (l.install f).2 = none) :
    (∀ e ∈ f.exports (ownerName f), e.isValid = true) ∧ (∀ d ∈ f.effects, isOperation d = true) ∧
      ∃ t t' : EnumTree, t.merge f.enums = .ok t' := by
  obtain ⟨hfree, namespaces, ops, enums, hexports, hops, -⟩ := install_accepted h
  refine ⟨?_, ?_, ?_⟩
  · unfold Namespaces.register at hexports
    split at hexports
    · cases hexports
    · rename_i haccepted
      exact Namespaces.valid_of_accepted haccepted
  · have hall := (addOperations_accepted rfl hops).1
    rw [List.takeWhile_eq_self_iff] at hall
    exact hall
  · rw [install_of_operations hfree hexports hops] at h
    split at h
    · cases h
    · next enums' hmerge => exact ⟨_, enums', hmerge⟩

/-! ## a file that is installed -/

/-- A file is installed: what the catalog and the registry have of its origin and under the names of
its effects is what the file says. -/
structure Holds (l : Library) (f : CatalogFile) : Prop where
  accepted : ∃ l₀ : Library, (l₀.install f).2 = none
  sound : Namespaces.Sound l.registry.namespaces.records
  listed : l.catalog.owners.get? (ownerName f) = some (f.effects.map Descriptor.canonical)
  alone : ∀ owner names, l.catalog.owners.get? owner = some names →
    ∀ name ∈ f.effects.map Descriptor.canonical,
    name ∈ names → owner = ownerName f
  records : l.registry.namespaces.ownedBy (ownerName f) = Namespaces.together (ownerName f)
    (f.exports (ownerName f))
  spec : ∀ name ∈ f.effects.map Descriptor.canonical, ∀ spec,
    l.registry.ops.lookup? name = some spec ↔
    ∃ d args, lastOf f.effects name = some d ∧ d.args = .ok args ∧ spec = ⟨name, args⟩
  starter : ∀ name ∈ f.effects.map Descriptor.canonical, name ∈ l.registry.ops.starters ↔
    ∃ d ∈ f.effects, d.canonical = name ∧ d.starter = true
  passthrough : ∀ name ∈ f.effects.map Descriptor.canonical, name ∈ l.registry.ops.passthrough ↔
    ∃ d ∈ f.effects, d.canonical = name ∧ d.passthrough = true

variable {l l' : Library} {f : CatalogFile}

/-- The effects of a file that is installed are of no other origin. -/
theorem Holds.conflict? (h : l.Holds f) : l.conflict? (ownerName f) f = none := by
  refine List.findSome?_eq_none_iff.2 fun d hd => ?_
  cases howner : l.catalog.ownerOf? d.canonical with
  | none => rfl
  | some owner =>
    obtain ⟨⟨o, names⟩, hfind, rfl⟩ := Option.map_eq_some_iff.1 howner
    have hnames := Table.mem_entries_iff.1 (List.mem_of_find?_eq_some hfind)
    have hmem : d.canonical ∈ names := by simpa using List.find?_some hfind
    simp [h.alone o names hnames _ (List.mem_map_of_mem hd) hmem]

/-- An installed file is accepted again.  Its records go behind all others, and its constants over
those that there are. -/
theorem Holds.install_again (h : l.Holds f) : ∃ ops enums,
    addOperations (l.registry.ops.without (f.effects.map Descriptor.canonical)) [] f.effects =
      (ops, none) ∧
      l.registry.enums.merge f.enums = .ok enums ∧
      l.install f =
        ({ registry := { namespaces := l.registry.namespaces.moveLast (ownerName f), ops, enums }
           catalog := {
            effects := f.effects.foldl (fun t d => t.insert d.canonical d)
              ((f.effects.map Descriptor.canonical).foldl Table.erase l.catalog.effects)
            owners := (l.catalog.owners.erase (ownerName f)).insert (ownerName f)
              (f.effects.map Descriptor.canonical)
            generation := l.catalog.generation + 1 + 1 } }, none) := by
  obtain ⟨l₀, haccepted⟩ := h.accepted
  obtain ⟨hvalid, hoperations, t, t', hmerged⟩ := of_accepted haccepted
  obtain ⟨ops, hops⟩ := addOperations_of_operations hoperations
    (l.registry.ops.without (f.effects.map Descriptor.canonical)) []
  obtain ⟨enums, henums⟩ := EnumTree.merge_accepted hmerged l.registry.enums
  refine ⟨ops, enums, hops, henums, ?_⟩
  have hl := uninstall_listed h.listed
  have hexports : (l.uninstall (ownerName f)).1.registry.namespaces.register (ownerName f)
      (f.exports (ownerName f)) =
      .ok (l.registry.namespaces.moveLast (ownerName f)) := by
    rw [hl]
    exact Namespaces.register_unregister h.sound h.records hvalid
  rw [install_of_operations h.conflict? hexports (by rw [hl]; exact hops), hl]
  dsimp only
  rw [henums]

/-- The operations of an installed file are added as they were. -/
theorem Holds.operations_again (h : l.Holds f) {ops : Operations}
    (hops : addOperations (l.registry.ops.without (f.effects.map Descriptor.canonical)) []
      f.effects = (ops, none)) :
    (∀ name, ops.lookup? name = l.registry.ops.lookup? name) ∧
      (∀ name, name ∈ ops.starters ↔ name ∈ l.registry.ops.starters) ∧
      ∀ name, name ∈ ops.passthrough ↔ name ∈ l.registry.ops.passthrough := by
  obtain ⟨-, hspecs, hstarters, hpassthrough⟩ := addOperations_spec hops
  -- a mark under a name of the file is the file's, and any other one is left
  have hmark : ∀ {mark : Descriptor → Bool} {marked : List String},
      (∀ name ∈ f.effects.map Descriptor.canonical,
        (name ∈ marked ↔ ∃ d ∈ f.effects, d.canonical = name ∧ mark d = true)) → ∀ name,
      ((∃ d ∈ f.effects, d.canonical = name ∧ mark d = true) ∨
        name ∈ marked.filter (· ∉ f.effects.map Descriptor.canonical)) ↔ name ∈ marked := by
    intro mark marked hmarked name
    rw [List.mem_filter, decide_eq_true_eq]
    by_cases hname : name ∈ f.effects.map Descriptor.canonical
    · simp only [hmarked name hname, hname, not_true_eq_false, and_false, or_false]
    · have hnone : ¬ ∃ d ∈ f.effects, d.canonical = name ∧ mark d = true := by
        rintro ⟨d, hd, rfl, -⟩
        exact hname (List.mem_map_of_mem hd)
      simp only [hnone, hname, not_false_eq_true, and_true, false_or]
  refine ⟨fun name => Option.ext fun spec => ?_,
    fun name => (hstarters name).trans (hmark h.starter name),
      fun name => (hpassthrough name).trans (hmark h.passthrough name)⟩
  by_cases hname : name ∈ f.effects.map Descriptor.canonical
  · rw [hspecs, h.spec name hname]
    simp only [hname, not_true_eq_false, false_and, or_false]
  · have hkept : (l.registry.ops.without (f.effects.map Descriptor.canonical)).lookup? name =
        l.registry.ops.lookup? name := by
      rw [Operations.lookup?, Operations.without, Table.get?_filter, Operations.lookup?]
      cases l.registry.ops.specs.get? name with
      | none => rfl
      | some spec => exact if_pos (decide_eq_true hname)
    rw [hspecs, lastOf_eq_none_iff.2 hname, hkept]
    simp only [hname, reduceCtorEq, false_and, exists_false, not_false_eq_true, true_and, false_or]

/-- So it is installed. -/
theorem Holds.holds_again (h : l.Holds f) : (l.install f).1.Holds f := by
  obtain ⟨ops, enums, hops, -, hl⟩ := h.install_again
  obtain ⟨hlookup, hstarters, hpassthrough⟩ := h.operations_again hops
  rw [hl]
  refine ⟨h.accepted, h.sound.of_perm (l.registry.namespaces.moveLast_perm _), ?_,
    fun owner names hnames => ?_, ?_, fun name hname spec => ?_, fun name hname => ?_,
      fun name hname => ?_⟩
  · simp
  · rw [Table.get?_insert] at hnames
    split at hnames
    · next howner => exact fun _ _ _ => howner
    · next howner =>
        rw [Table.get?_erase, if_neg howner] at hnames
        exact h.alone owner names hnames
  · exact (Namespaces.ownedBy_moveLast _ _).trans h.records
  · rw [hlookup]
    exact h.spec name hname spec
  · rw [hstarters]
    exact h.starter name hname
  · rw [hpassthrough]
    exact h.passthrough name hname

/-! ## libraries in use -/

/-- The files that are left after one came. -/
def left (l : Library) (fs : List CatalogFile) (f : CatalogFile) : List CatalogFile :=
  if (l.conflict? (ownerName f) f).isSome then fs
  else if (l.install f).2.isSome then others (ownerName f) fs
  else others (ownerName f) fs ++ [f]

/-- The libraries that files make by coming and going, with the files that are left, whatever the
constants and the flags are set to between. -/
inductive InUse : Library → List CatalogFile → Prop
  | empty : InUse {} []
  | install {l : Library} {fs : List CatalogFile} (h : InUse l fs) (f : CatalogFile) :
      InUse (l.install f).1 (l.left fs f)
  | uninstall {l : Library} {fs : List CatalogFile} (h : InUse l fs) (owner : String) :
      InUse (l.uninstall owner).1 (others owner fs)
  | constants {l : Library} {fs : List CatalogFile} (h : InUse l fs) (enums : EnumTree) :
      InUse { l with registry := { l.registry with enums } } fs
  | flags {l : Library} {fs : List CatalogFile} (h : InUse l fs) (flagsOn : Bool)
      (flags : Table Bool) :
      InUse { l with registry := { l.registry with
        namespaces := { l.registry.namespaces with flagsOn, flags } } } fs

/-- Files that were accepted have their records in the order of their effects. -/
def Ordered (l : Library) (fs : List CatalogFile) : Prop :=
  ∀ f ∈ fs, (∃ l₀ : Library, (l₀.install f).2 = none) ∧
    l.registry.namespaces.ownedBy (ownerName f) = Namespaces.together (ownerName f)
      (f.exports (ownerName f))

variable {fs : List CatalogFile}

/-- Uninstalling keeps the order of the files. -/
theorem Ordered.uninstall (h : l.Ordered fs) (owner : String) :
    (l.uninstall owner).1.Ordered (others owner fs) := by
  intro f hf
  obtain ⟨hf, hother⟩ := mem_others.1 hf
  obtain ⟨haccepted, hrecords⟩ := h f hf
  refine ⟨haccepted, ?_⟩
  cases hlisted : l.catalog.owners.get? owner with
  | none => simpa [Library.uninstall, hlisted] using hrecords
  | some names =>
    rw [uninstall_listed hlisted]
    exact (Namespaces.ownedBy_unregister _ hother).trans hrecords

/-- A file that is accepted goes to the end. -/
theorem Ordered.accepted (h : l.Ordered fs) (hkeeps : l.Keeps fs)
    (hinstall : (l.install f).2 = none) :
    (l.install f).1.Ordered (others (ownerName f) fs ++ [f]) := by
  obtain ⟨-, namespaces, ops, enums, hexports, -, hl⟩ := install_accepted hinstall
  have hleft := hkeeps.uninstall (ownerName f)
  have hnone : (l.uninstall (ownerName f)).1.registry.namespaces.ownedBy (ownerName f) = [] := by
    refine List.filter_eq_nil_iff.2 fun e he howner => ?_
    obtain ⟨d, hd, -⟩ := (hleft.record e).1 he
    exact (installed_others.1 hd).2 (of_decide_eq_true howner)
  rw [hl]
  intro g hg
  rcases List.mem_append.1 hg with hg | hg
  · obtain ⟨haccepted, hrecords⟩ := h.uninstall (ownerName f) g hg
    exact ⟨haccepted, (Namespaces.ownedBy_register hexports (mem_others.1 hg).2).trans hrecords⟩
  · obtain rfl := List.mem_singleton.1 hg
    exact ⟨⟨l, hinstall⟩, Namespaces.ownedBy_of_register hexports hnone⟩

/-- What comes leaves the tables in agreement, and the records in order. -/
theorem Keeps.left (h : l.Keeps fs) (hordered : l.Ordered fs) (f : CatalogFile) :
    (l.install f).1.Keeps (l.left fs f) ∧ (l.install f).1.Ordered (l.left fs f) := by
  unfold Library.left
  split
  · next hconflict => rw [install_conflict hconflict]; exact ⟨h, hordered⟩
  · next hfree =>
      split
      · next hrefused =>
          rw [h.refused (by simpa using hfree) hrefused]
          exact ⟨h.uninstall _, hordered.uninstall _⟩
      · next haccepted =>
          have hinstall : (l.install f).2 = none := by simpa using haccepted
          exact ⟨h.accepted hinstall, hordered.accepted h hinstall⟩

/-- A library in use keeps its files, in order. -/
theorem InUse.keeps (h : InUse l fs) : l.Keeps fs ∧ l.Ordered fs := by
  induction h with
  | empty => exact ⟨.empty, by simp [Ordered]⟩
  | install _ f ih => exact ih.1.left ih.2 f
  | uninstall _ owner ih => exact ⟨ih.1.uninstall owner, ih.2.uninstall owner⟩
  | constants _ enums ih => exact ⟨{ ih.1 with }, ih.2⟩
  | flags _ flagsOn flags ih => exact ⟨{ ih.1 with }, ih.2⟩

/-- A file that is left is installed. -/
theorem InUse.holds (h : InUse l fs) (hf : f ∈ fs) : l.Holds f := by
  obtain ⟨hkeeps, hordered⟩ := h.keeps
  obtain ⟨haccepted, hrecords⟩ := hordered f hf
  have hmine : ∀ {g : CatalogFile} {name : String}, g ∈ fs →
      name ∈ f.effects.map Descriptor.canonical →
      name ∈ g.effects.map Descriptor.canonical → g = f := fun hg hname hname' =>
    hkeeps.apart _ hg f hf (.inr ⟨_, hname', hname⟩)
  have hmark : ∀ {mark : Descriptor → Bool} {name : String},
      name ∈ f.effects.map Descriptor.canonical →
      ((∃ g ∈ fs, ∃ d ∈ g.effects, d.canonical = name ∧ mark d = true) ↔
        ∃ d ∈ f.effects, d.canonical = name ∧ mark d = true) := by
    intro mark name hname
    constructor
    · rintro ⟨g, hg, d, hd, rfl, hd'⟩
      obtain rfl := hmine hg hname (List.mem_map_of_mem hd)
      exact ⟨d, hd, rfl, hd'⟩
    · exact fun hd => ⟨f, hf, hd⟩
  refine ⟨haccepted, hkeeps.sound, (hkeeps.owned _ _).2 ⟨f, hf, rfl, rfl⟩,
    fun owner names hnames name hname hmem => ?_, hrecords, fun name hname spec =>
      ?_, fun name hname => (hkeeps.starter name).trans (hmark hname),
    fun name hname => (hkeeps.passthrough name).trans (hmark hname)⟩
  · obtain ⟨g, hg, rfl, rfl⟩ := (hkeeps.owned _ _).1 hnames
    rw [hmine hg hname hmem]
  · rw [hkeeps.spec]
    constructor
    · rintro ⟨owner, d, args, ⟨g, hg, -, hlast⟩, hargs⟩
      obtain ⟨hd, rfl⟩ := of_lastOf hlast
      obtain rfl := hmine hg hname (List.mem_map_of_mem hd)
      exact ⟨d, args, hlast, hargs⟩
    · rintro ⟨d, args, hlast, hargs⟩
      exact ⟨_, d, args, ⟨f, hf, rfl, hlast⟩, hargs⟩

/-! ## what names and programs come to -/

/-- The names of the operations are those that they were. -/
theorem Holds.alike (h : l.Holds f) {enums : EnumTree}
    (henums : l.registry.enums.merge f.enums = .ok enums) :
    Registry.Alike { l.registry with enums } (l.install f).1.registry := by
  obtain ⟨ops, enums', hops, henums', hl⟩ := h.install_again
  obtain rfl := Except.ok.inj (henums'.symm.trans henums)
  obtain ⟨hlookup, hstarters, hpassthrough⟩ := h.operations_again hops
  have hspecs : ops.specs = l.registry.ops.specs := Table.ext_get? hlookup
  have hcontains : ∀ {xs ys : List String} {name : String}, (name ∈ xs ↔ name ∈ ys) →
      xs.contains name = ys.contains name := by
    intro xs ys name hmem
    rw [Bool.eq_iff_iff, List.contains_iff_mem, List.contains_iff_mem, hmem]
  rw [hl]
  refine ⟨rfl, fun name => hcontains (hstarters name), fun name => hcontains (hpassthrough name),
    ?_⟩
  rw [Surroundings.callNames, Surroundings.callNames, Namespaces.names_moveLast, Operations.names,
    Operations.names, hspecs]

/-- A call is displaced when its name is a bare one that was the origin's for being the first. -/
def DisplacesCall (l : Library) (owner : String) (c : Call) : Prop :=
  c.ns.explicit = false ∧ l.registry.namespaces.Displaced owner c.name c.ns.preferred

/-- Any other call refers to the operation that it did. -/
theorem Holds.resolve?_again (h : l.Holds f) {c : Call} (hc : ¬ l.DisplacesCall (ownerName f) c)
    (enums : EnumTree) :
    Surroundings.resolve? (l.install f).1.registry c =
      Surroundings.resolve? { l.registry with enums } c := by
  obtain ⟨ops, enums', hops, -, hl⟩ := h.install_again
  have hlookup := (h.operations_again hops).1
  rw [hl, Surroundings.resolve?, Surroundings.resolve?]
  dsimp only
  cases hexplicit : c.ns.explicit with
  | true => rw [if_pos rfl, if_pos rfl, Namespaces.lookup_moveLast h.sound, hlookup]
  | false =>
    rw [if_neg (by simp), if_neg (by simp), Namespaces.resolve_moveLast h.sound, hlookup]
    rintro spaces heq hdisplaced
    exact hc ⟨hexplicit, Option.some.inj heq ▸ hdisplaced⟩

end Library

open Library in
/-- A file that is installed is accepted when it is installed again, and is installed then.  A name
refers to the record that it did, unless it is a bare one that no preferred namespace has, whose
first active record is of the file and not the only one: that refers to the first one of another
origin.  A program that looks up no such name compiles as before with the constants of the file
merged once more, and to the same plan where those change nothing. -/
theorem reinstall_resolves_iff {l : Library} {f : CatalogFile} (h : l.Holds f) :
    (l.install f).2 = none ∧ (l.install f).1.Holds f ∧
      (∀ name preferred, (l.install f).1.registry.namespaces.resolve name preferred =
          l.registry.namespaces.resolve name preferred ↔
        ∀ spaces, preferred = some spaces →
        ¬ l.registry.namespaces.Displaced (ownerName f) name spaces) ∧
      (∀ name spaces, l.registry.namespaces.Displaced (ownerName f) name spaces → ∃ e e',
        l.registry.namespaces.resolve name (some spaces) = some e ∧ e.owner = ownerName f ∧
          (l.install f).1.registry.namespaces.resolve name (some spaces) = some e' ∧
          (l.registry.namespaces.unregister (ownerName f)).resolveBare name [] = some e' ∧
          e'.owner ≠ ownerName f) ∧
      (∃ enums, l.registry.enums.merge f.enums = .ok enums ∧ ∀ source options,
        (∀ p, Program.parse options source = .ok p → ∀ c,
          p.LooksUp { l.registry with enums } options c →
          ¬ l.DisplacesCall (ownerName f) c) →
        Plan.compile source (l.install f).1.registry options =
          Plan.compile source { l.registry with enums } options) ∧
      (l.registry.enums.merge f.enums = .ok l.registry.enums → ∀ source options,
        (∀ p, Program.parse options source = .ok p → ∀ c, p.LooksUp l.registry options c →
          ¬ l.DisplacesCall (ownerName f) c) →
        Plan.compile source (l.install f).1.registry options = Plan.compile source l.registry
          options) := by
  obtain ⟨ops, enums, hops, henums, hl⟩ := h.install_again
  have hnamespaces : (l.install f).1.registry.namespaces = l.registry.namespaces.moveLast
    (ownerName f) := by rw [hl]
  have hdisplaced : ∀ name spaces, l.registry.namespaces.Displaced (ownerName f) name spaces →
      ∃ e e',
      l.registry.namespaces.resolve name (some spaces) = some e ∧ e.owner = ownerName f ∧
        (l.install f).1.registry.namespaces.resolve name (some spaces) = some e' ∧
        (l.registry.namespaces.unregister (ownerName f)).resolveBare name [] = some e' ∧
            e'.owner ≠ ownerName f := by
    intro name spaces hname
    rw [hnamespaces]
    exact Namespaces.resolve_of_displaced h.sound hname
  have hcompile : ∀ enums, l.registry.enums.merge f.enums = .ok enums → ∀ source options,
      (∀ p, Program.parse options source = .ok p → ∀ c,
        p.LooksUp { l.registry with enums } options c →
        ¬ l.DisplacesCall (ownerName f) c) →
      Plan.compile source (l.install f).1.registry options =
          Plan.compile source { l.registry with enums } options :=
    fun enums henums source options hcalls => Plan.compile_congr (h.alike henums) fun p hp c hc =>
      h.resolve?_again (hcalls p hp c hc) enums
  refine ⟨by rw [hl], h.holds_again, fun name preferred => ⟨?_, fun hnot => ?_⟩, hdisplaced,
    ⟨enums, henums, hcompile enums henums⟩, hcompile l.registry.enums⟩
  · rintro hsame spaces rfl hname
    obtain ⟨e, e', hbefore, howner, hafter, -, hother⟩ := hdisplaced name spaces hname
    rw [hsame, hbefore] at hafter
    exact hother (Option.some.inj hafter ▸ howner)
  · rw [hnamespaces]
    exact Namespaces.resolve_moveLast h.sound hnot

/-! ## two files with an effect of one name -/

open Library

/-- The file of an effect, with a constant. -/
def softGlow : CatalogFile := { glowFile with enums := [("mode", .map [("soft", .int 1)])] }

/-- The file of another effect of that name, which has a parameter, and another value for the
constant. -/
def bloomGlow : CatalogFile where
  space := "bloom"
  effects := [{ glow with space := "bloom", params := [{ name := "level", type := "float" }] }]
  enums := [("mode", .map [("soft", .int 2)])]
  origin := "bloom.yaml"

/-- The tree of the constant. -/
def modes (v : Float) : EnumTree := .node none [("mode", .node none [("soft", .node (some v) [])])]

/-- A merged mode replaces the one before. -/
theorem merge_modes {t : EnumTree} (ht : t = .empty ∨ ∃ v, t = modes v) (i : Int) :
    t.merge [("mode", .map [("soft", .int i)])] = .ok (modes (Number.ofInt i)) := by
  rcases ht with rfl | ⟨v, rfl⟩ <;>
    simp [modes, EnumTree.merge, EnumTree.entriesInOrder, EnumTree.inOrder, Document.sortEntries,
      EnumTree.overlayEntries, EnumTree.overlay, bind, Except.bind, EnumTree.child?,
      EnumTree.children, EnumTree.setChild, EnumTree.setValue, EnumTree.putChild, EnumTree.value,
        EnumTree.empty]

/-- The library with the first file installed. -/
def softly : Library := { glowing with registry := { glowing.registry with enums := modes 1 } }

/-- The library with both files installed, where the constant has the value of the second one. -/
def twoGlows : Library where
  registry.namespaces.records := softGlow.exports "glow.yaml" ++ bloomGlow.exports "bloom.yaml"
  registry.ops := {
    specs := .ofList [("fx.glow", { name := "fx.glow" }),
      ("bloom.glow", { name := "bloom.glow", args := [{ name := "level" }] })]
    starters := ["fx.glow", "bloom.glow"] }
  registry.enums := modes 2
  catalog.effects := .ofList [("fx.glow", glow), ("bloom.glow", bloomGlow.effects.headD glow)]
  catalog.owners := .ofList [("glow.yaml", ["fx.glow"]), ("bloom.yaml", ["bloom.glow"])]
  catalog.generation := 2

theorem install_softGlow : ({} : Library).install softGlow = (softly, none) := by
  have hmerge : (({} : Library).uninstall (ownerName softGlow)).1.registry.enums.merge
      softGlow.enums =
      .ok (modes (Number.ofInt 1)) := merge_modes (.inl rfl) 1
  rw [install_of_operations (l := {}) (f := softGlow) rfl register_glow rfl, hmerge]
  rfl

theorem install_bloomGlow : softly.install bloomGlow = (twoGlows, none) := by
  have hvalid : ({ space := "bloom", name := "glow", owner := "bloom.yaml" } : Export).isValid =
      true := by
    simp [Export.isValid]
  have haccepted : softly.registry.namespaces.refusal? "bloom.yaml"
      (bloomGlow.exports "bloom.yaml") = none := by
    simp [Namespaces.refusal?, CatalogFile.exports, bloomGlow, glow, hvalid, Namespaces.find?,
      softly, glowing, glowFile, Export.key]
  have hexports : softly.registry.namespaces.register "bloom.yaml"
      (bloomGlow.exports "bloom.yaml") =
      .ok { records := softGlow.exports "glow.yaml" ++ bloomGlow.exports "bloom.yaml" } := by
    rw [Namespaces.register, haccepted]
    rfl
  have hmerge : (softly.uninstall (ownerName bloomGlow)).1.registry.enums.merge bloomGlow.enums =
      .ok (modes (Number.ofInt 2)) := merge_modes (.inr ⟨1, rfl⟩) 2
  rw [install_of_operations (l := softly) (f := bloomGlow) rfl hexports rfl, hmerge]
  rfl

/-- Both files are left in it. -/
theorem inUse_twoGlows : InUse twoGlows [softGlow, bloomGlow] := by
  have hfirst : InUse softly [softGlow] := by
    have hleft : ({} : Library).left [] softGlow = [softGlow] := by
      rw [left, install_softGlow]
      rfl
    rw [← hleft, ← show (({} : Library).install softGlow).1 = softly from congrArg Prod.fst
      install_softGlow]
    exact .install .empty softGlow
  have hleft : softly.left [softGlow] bloomGlow = [softGlow, bloomGlow] := by
    rw [left, install_bloomGlow]
    rfl
  rw [← hleft, ← show (softly.install bloomGlow).1 = twoGlows from congrArg Prod.fst
    install_bloomGlow]
  exact .install hfirst bloomGlow

/-- A program that draws with an effect in one namespace only. -/
def glows (space : String) (kwargs : List Keyword) : Program where
  search := [space]
  statements := [.run {
    calls := [{ name := "glow", kwargs, ns := { search := [space] } }]
    out := some (.surface { kind := .output, index := 0 } {}) } {}]

/-- The operations that a program is planned to. -/
def Library.drawnOps (l : Library) (p : Program) : Option (List String) :=
  (p.plan l.registry {}).toOption.map fun plan => plan.steps.map (·.op)

/-- The levels that are given to them. -/
def Library.drawnLevels (l : Library) (p : Program) : Option (List Float) :=
  (p.plan l.registry {}).toOption.map fun plan => plan.steps.filterMap fun st =>
    match st.args.get? "level" with
    | some (.scalar x) => some x
    | _ => none

/-- When the first file is installed again, the bare name refers to the effect of the second one,
and the constant has the value of the first one. -/
theorem reloaded_glow_elsewhere : InUse twoGlows [softGlow, bloomGlow] ∧ twoGlows.Holds softGlow ∧
    (twoGlows.install softGlow).2 = none ∧
    twoGlows.registry.namespaces.resolve "glow" (some []) =
      some { space := "fx", name := "glow", owner := "glow.yaml" } ∧
    (twoGlows.install softGlow).1.registry.namespaces.resolve "glow" (some []) =
      some { space := "bloom", name := "glow", owner := "bloom.yaml" } ∧
    twoGlows.drawnOps (glows "other" []) = some ["fx.glow"] ∧
    (twoGlows.install softGlow).1.drawnOps (glows "other" []) = some ["bloom.glow"] ∧
    twoGlows.drawnLevels (glows "bloom" [⟨"level", .member ["mode", "soft"] {}, {}⟩]) = some [2] ∧
    (twoGlows.install softGlow).1.drawnLevels
      (glows "bloom" [⟨"level", .member ["mode", "soft"] {}, {}⟩]) = some [1] := by
  have hholds : twoGlows.Holds softGlow := inUse_twoGlows.holds List.mem_cons_self
  obtain ⟨ops, enums, hops, henums, hl⟩ := hholds.install_again
  have hmodes : twoGlows.registry.enums.merge softGlow.enums = .ok (modes (Number.ofInt 1)) :=
    merge_modes (.inr ⟨2, rfl⟩) 1
  obtain rfl := Except.ok.inj (hmodes.symm.trans henums)
  obtain rfl := (Prod.mk.inj hops).1
  rw [hl]
  refine ⟨inUse_twoGlows, hholds, rfl, by decide +kernel, by decide +kernel, by decide +kernel,
    by decide +kernel, by decide +kernel, by decide +kernel⟩

/-- With one file nothing is displaced, and every source compiles to the plan that it did; of two
files the one that is installed again gives way to the other. -/
theorem glows_reinstalled :
    (glowing.Holds glowFile ∧ (glowing.install glowFile).2 = none ∧
      (∀ name preferred, (glowing.install glowFile).1.registry.namespaces.resolve name preferred =
        glowing.registry.namespaces.resolve name preferred) ∧
      ∀ source options, Plan.compile source (glowing.install glowFile).1.registry options =
        Plan.compile source glowing.registry options) ∧
      twoGlows.Holds softGlow ∧ (twoGlows.install softGlow).2 = none ∧
      ∃ e', (twoGlows.install softGlow).1.registry.namespaces.resolve "glow" (some []) = some e' ∧
        e'.owner ≠ "glow.yaml" := by
  have hone : glowing.Holds glowFile := by
    have hleft : ({} : Library).left [] glowFile = [glowFile] := by
      rw [left, install_glow]
      rfl
    have huse : InUse (({} : Library).install glowFile).1 [glowFile] :=
      hleft ▸ .install .empty glowFile
    rw [install_glow] at huse
    exact huse.holds List.mem_cons_self
  have htwo : twoGlows.Holds softGlow := inUse_twoGlows.holds List.mem_cons_self
  have hmerge : glowing.registry.enums.merge glowFile.enums = .ok glowing.registry.enums := by
    change EnumTree.empty.merge [] = .ok EnumTree.empty
    simp [EnumTree.merge, EnumTree.entriesInOrder, Document.sortEntries, EnumTree.overlayEntries]
  -- there is no record of another origin
  have halone : ∀ name spaces, ¬ glowing.registry.namespaces.Displaced "glow.yaml" name spaces := by
    intro name spaces hname
    obtain ⟨e, he, -, hother, -⟩ := hname.other
    obtain rfl := List.mem_singleton.1 he
    exact hother rfl
  have hdisplaced : twoGlows.registry.namespaces.Displaced "glow.yaml" "glow" [] := by
    refine ⟨by simp,
      ⟨{ space := "fx", name := "glow", owner := "glow.yaml" }, by decide +kernel, rfl⟩,
        ⟨{ space := "bloom", name := "glow", owner := "bloom.yaml" }, ?_, rfl, by decide, rfl⟩⟩
    exact List.mem_cons_of_mem _ List.mem_cons_self
  obtain ⟨haccepted, -, hsame, -, -, hplans⟩ := reinstall_resolves_iff hone
  obtain ⟨haccepted', -, -, helsewhere, -⟩ := reinstall_resolves_iff htwo
  obtain ⟨-, e', -, -, hafter, -, hother⟩ := helsewhere "glow" [] hdisplaced
  exact ⟨⟨hone, haccepted, fun name preferred => (hsame name preferred).2 fun spaces _ =>
    halone name spaces,
    fun source options => hplans hmerge source options fun p _ c _ hc => halone c.name _ hc.2⟩,
    htwo, haccepted', e', hafter, hother⟩

end EffectChain
