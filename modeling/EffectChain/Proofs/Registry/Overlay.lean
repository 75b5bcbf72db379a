import EffectChain.Proofs.Data.Table
import EffectChain.Registry.Enums
import Mathlib.Tactic.ByContra

/-!
# EffectChain.Proofs.Registry.Overlay

Constants that are merged into a tree lie over it, path by path.

The leaves of a document are its values that are no maps.  A document is laid over a tree if
and only if its leaves are numbers (`EnumTree.numeric_of_overlay`,
`EnumTree.exists_leaf_of_overlay`); the value at a path is then that of the leaf there, if there
is one, and the one from before otherwise (`EnumTree.lookup?_overlay`).  A document that lies over a tree adds nothing to it when it is
laid over it again (`EnumTree.overlay_overlay`).

* `constants_overlaid` — what becomes of any tree into which any constants are merged, once,
  twice, or together with others.
-/

namespace EffectChain

/-! ## entries -/

namespace Table

variable {α : Type}

/-- Entering the same value twice is entering it once. -/
theorem insertEntry_insertEntry (k : String) (v : α) (es : List (String × α)) :
    insertEntry k v (insertEntry k v es) = insertEntry k v es := by
  fun_induction insertEntry k v es with
  | case1 => simp [insertEntry]
  | case2 => simp [insertEntry]
  | case3 => simp [insertEntry]
  | case4 k' v' rest hlt hne ih => rw [insertEntry, if_neg hlt, if_neg hne, ih]

/-- Entries of different names may be entered in either order. -/
theorem insertEntry_comm {k k' : String} (h : k ≠ k') (v v' : α) (es : List (String × α)) :
    insertEntry k v (insertEntry k' v' es) = insertEntry k' v' (insertEntry k v es) := by
  induction es with
  | nil => grind [insertEntry]
  | cons e es ih =>
    obtain ⟨n, w⟩ := e
    grind [insertEntry]

/-- The order of entries makes no difference to what their keys are looked up to. -/
theorem lookup_perm {es es' : List (String × α)} (h : es.Perm es') (hkeys : (es.map (·.1)).Nodup)
    (k : String) :
    es.lookup k = es'.lookup k := by
  induction h with
  | nil => rfl
  | cons e _ ih =>
    rw [lookup_cons_eq, lookup_cons_eq, ih (List.nodup_cons.1 hkeys).2]
  | swap e e' es =>
    have hne : e'.1 ≠ e.1 := by
      intro heq
      simp [heq] at hkeys
    rw [lookup_cons_eq, lookup_cons_eq, lookup_cons_eq, lookup_cons_eq]
    split
    · next hk => rw [if_neg (hk ▸ hne)]
    · rfl
  | trans h _ ih ih' => rw [ih hkeys, ih' ((h.map _).nodup_iff.1 hkeys)]

end Table

/-! ## leaves -/

namespace Document

/-- The value of a document at a path, if it is no map. -/
def leaf? : Document → List String → Option Document
  | .map es, p :: ps => (es.lookup p).bind (leaf? · ps)
  | .map _, [] => none
  | d, [] => some d
  | _, _ :: _ => none

/-- The number of a document at a path. -/
def constant? (d : Document) (path : List String) : Option Float := (d.leaf? path).bind number?

/-- No two entries of a map have a key in common, all the way down. -/
inductive Keyed : Document → Prop
  | map {es : List (String × Document)} (hkeys : (es.map (·.1)).Nodup) (hes : ∀ e ∈ es, Keyed e.2) :
      Keyed (.map es)
  | leaf {d : Document} (hd : ∀ es, d ≠ .map es) : Keyed d

variable {d : Document} {es : List (String × Document)} {key : String} {path : List String}

/-- A path into a map goes on at the entry its first name has. -/
theorem leaf?_cons (key : String) (d : Document) (es : List (String × Document)) (p : String)
    (ps : List String) :
    (Document.map ((key, d) :: es)).leaf? (p :: ps) =
      if p = key then d.leaf? ps else (Document.map es).leaf? (p :: ps) := by
  rw [leaf?, leaf?, Table.lookup_cons_eq]
  split <;> rfl

/-- A value that is no map is its own only leaf. -/
theorem leaf?_of_not_map (hd : ∀ es, d ≠ .map es) (path : List String) :
    d.leaf? path = if path = [] then some d else none := by
  cases d with
  | map es => exact absurd rfl (hd es)
  | _ => cases path <;> rfl

theorem mem_of_lookup (h : es.lookup key = some d) : (key, d) ∈ es := by
  obtain ⟨before, after, rfl, -⟩ := List.lookup_eq_some_iff.1 h
  simp

/-- A path has no leaf in a map without its first name. -/
theorem leaf?_of_notMem {p : String} (h : p ∉ es.map (·.1)) (ps : List String) :
    (Document.map es).leaf? (p :: ps) = none := by
  induction es with
  | nil => rfl
  | cons e es ih =>
    obtain ⟨key, d⟩ := e
    rw [List.map_cons, List.mem_cons, not_or] at h
    rw [leaf?_cons, if_neg h.1, ih h.2]

/-- A map has distinct keys when its first key does not come again and the rest has distinct keys.
-/
theorem keyed_cons :
    (Document.map ((key, d) :: es)).Keyed ↔ key ∉ es.map (·.1) ∧ d.Keyed ∧
    (Document.map es).Keyed := by
  constructor
  · intro h
    cases h with
    | map hkeys hes =>
      obtain ⟨hkey, hkeys⟩ := List.nodup_cons.1 hkeys
      obtain ⟨hd, hes⟩ := List.forall_mem_cons.1 hes
      exact ⟨hkey, hd, .map hkeys hes⟩
    | leaf hd => exact absurd rfl (hd _)
  · rintro ⟨hkey, hd, h⟩
    cases h with
    | map hkeys hes =>
        exact .map (List.nodup_cons.2 ⟨hkey, hkeys⟩) (List.forall_mem_cons.2 ⟨hd, hes⟩)
    | leaf hd => exact absurd rfl (hd _)

/-- The leaves of a document are numbers. -/
def Numeric (d : Document) : Prop := ∀ path x, d.leaf? path = some x → x.number?.isSome

/-- A number is numeric. -/
theorem numeric_of_number {v : Float} (hd : ∀ es, d ≠ .map es) (h : d.number? = some v) :
    d.Numeric := by
  intro path x hx
  rw [leaf?_of_not_map hd] at hx
  split at hx
  · rw [← Option.some.inj hx, h]
    rfl
  · cases hx

theorem numeric_nil : (Document.map []).Numeric := by
  intro path x hx
  cases path <;> cases hx

/-- A map is numeric when its entries are. -/
theorem numeric_cons (h : key ∉ es.map (·.1)) :
    (Document.map ((key, d) :: es)).Numeric ↔ d.Numeric ∧ (Document.map es).Numeric := by
  constructor
  · intro hall
    refine ⟨fun ps x hx => hall (key :: ps) x ?_, fun path x hx => ?_⟩
    · rw [leaf?_cons, if_pos rfl, hx]
    · cases path with
      | nil => cases hx
      | cons p ps =>
        refine hall (p :: ps) x ?_
        rw [leaf?_cons, if_neg, hx]
        rintro rfl
        rw [leaf?_of_notMem h] at hx
        cases hx
  · rintro ⟨hd, hes⟩ path x hx
    cases path with
    | nil => cases hx
    | cons p ps =>
      rw [leaf?_cons] at hx
      split at hx
      · exact hd ps x hx
      · exact hes (p :: ps) x hx

/-! ### entries in order -/

/-- Putting the entries of a map in order puts each value in order. -/
theorem entriesInOrder_eq_map (es : List (String × Document)) :
    EnumTree.entriesInOrder es = es.map fun e => (e.1, EnumTree.inOrder e.2) := by
  induction es with
  | nil => rfl
  | cons e es ih =>
    obtain ⟨key, d⟩ := e
    rw [EnumTree.entriesInOrder, ih]
    rfl

/-- Looking up in the ordered map is ordering what is looked up. -/
theorem lookup_entriesInOrder (es : List (String × Document)) (p : String) :
    (EnumTree.entriesInOrder es).lookup p = (es.lookup p).map EnumTree.inOrder := by
  induction es with
  | nil => rfl
  | cons e es ih =>
    obtain ⟨key, d⟩ := e
    rw [EnumTree.entriesInOrder, Table.lookup_cons_eq, Table.lookup_cons_eq, ih]
    split <;> rfl

theorem sortEntries_perm (es : List (String × Document)) : (sortEntries es).Perm es :=
  List.mergeSort_perm ..

theorem nodup_keys_entriesInOrder (h : (es.map (·.1)).Nodup) :
    ((EnumTree.entriesInOrder es).map (·.1)).Nodup := by
  rw [entriesInOrder_eq_map, List.map_map]
  exact h

theorem inOrder_of_not_map (hd : ∀ es, d ≠ .map es) : EnumTree.inOrder d = d := by
  cases d with
  | map es => exact absurd rfl (hd es)
  | _ => rfl

/-- The order of entries makes no difference to the leaves. -/
theorem leaf?_inOrder (hd : d.Keyed) (path : List String) :
    (EnumTree.inOrder d).leaf? path = d.leaf? path := by
  induction hd generalizing path with
  | leaf hd => rw [inOrder_of_not_map hd]
  | @map es hkeys hes ih =>
    cases path with
    | nil => rfl
    | cons p ps =>
      have hperm := (sortEntries_perm (EnumTree.entriesInOrder es)).symm
      rw [EnumTree.inOrder, leaf?, leaf?,
        ← Table.lookup_perm hperm (nodup_keys_entriesInOrder hkeys), lookup_entriesInOrder]
      cases hlookup : es.lookup p with
      | none => rfl
      | some d => exact ih (p, d) (mem_of_lookup hlookup) ps

/-- A document with distinct keys has distinct keys once it is in order. -/
theorem keyed_inOrder (hd : d.Keyed) : (EnumTree.inOrder d).Keyed := by
  induction hd with
  | leaf hd =>
    rw [inOrder_of_not_map hd]
    exact .leaf hd
  | @map es hkeys hes ih =>
    have hperm := sortEntries_perm (EnumTree.entriesInOrder es)
    refine .map ((hperm.map _).nodup_iff.2 (nodup_keys_entriesInOrder hkeys)) fun e he => ?_
    rw [hperm.mem_iff, entriesInOrder_eq_map] at he
    obtain ⟨e', he', rfl⟩ := List.mem_map.1 he
    exact ih e' he'

end Document

/-! ## a document laid over a tree -/

namespace EnumTree

open Document

variable {t t' : EnumTree} {d : Document} {es : List (String × Document)}

/-- Putting a child is entering it into the table of children. -/
theorem putChild_eq_insertEntry (name : String) (c : EnumTree) (cs : List (String × EnumTree)) :
    putChild name c cs = Table.insertEntry name c cs := by
  induction cs with
  | nil => rfl
  | cons e cs ih => rw [putChild, Table.insertEntry, ih]

@[simp] theorem child?_setChild (t : EnumTree) (name : String) (c : EnumTree) (p : String) :
    (t.setChild name c).child? p = if p = name then some c else t.child? p :=
  (congrArg (·.lookup p) (putChild_eq_insertEntry name c t.children)).trans
    (Table.lookup_insertEntry name p c t.children)

@[simp] theorem value_setChild (t : EnumTree) (name : String) (c : EnumTree) :
    (t.setChild name c).value = t.value := rfl

@[simp] theorem child?_setValue (t : EnumTree) (v : Float) (p : String) :
    (t.setValue v).child? p = t.child? p := rfl

theorem lookup?_nil (t : EnumTree) : t.lookup? [] = t.value := rfl

/-- Below a child, where a child that is missing has no values. -/
theorem lookup?_cons (t : EnumTree) (p : String) (ps : List String) :
    t.lookup? (p :: ps) = ((t.child? p).getD empty).lookup? ps := by
  rw [lookup?, find?]
  cases t.child? p with
  | some c => rfl
  | none =>
    have hempty : empty.lookup? ps = none := by
      cases ps <;> rfl
    rw [Option.getD_none, hempty]
    rfl

/-- A number overlays the value of its node, and anything else is refused with its path. -/
theorem overlay_of_leaf (hd : ∀ es, d ≠ .map es) (t : EnumTree) (path : List String) :
    t.overlay path d = match d.number? with
      | some v => .ok (t.setValue v)
      | none => .error (.invalidEnum (".".intercalate path) d.shown) := by
  cases d with
  | map es => exact absurd rfl (hd es)
  | _ => rfl

/-- The first entry of a map is laid over the child of its name, and the others over the tree
with that child. -/
theorem overlayEntries_cons (t : EnumTree) (path : List String) (key : String) (d : Document)
    (es : List (String × Document)) :
    t.overlayEntries path ((key, d) :: es) = match ((t.child? key).getD empty).overlay
      (path ++ [key]) d with
      | .ok c => (t.setChild key c).overlayEntries path es
      | .error e => .error e := by
  rw [overlayEntries]
  cases ((t.child? key).getD empty).overlay (path ++ [key]) d <;> rfl

mutual

/-- The values of a tree over which a document lies. -/
theorem lookup?_overlay {t t' : EnumTree} {path : List String} {d : Document} (hd : d.Keyed)
    (h : t.overlay path d = .ok t') (q : List String) :
    t'.lookup? q = (d.constant? q).or (t.lookup? q) := by
  by_cases hmap : ∃ es, d = .map es
  · obtain ⟨es, rfl⟩ := hmap
    exact lookup?_overlayEntries hd h q
  · have hleaf := fun es heq => hmap ⟨es, heq⟩
    rw [overlay_of_leaf hleaf] at h
    split at h
    · next v hv =>
        obtain rfl := Except.ok.inj h
        rw [constant?, leaf?_of_not_map hleaf]
        cases q with
        | nil => simp [hv, lookup?_nil, setValue, value]
        | cons p ps => simp [lookup?_cons]
    · cases h
termination_by sizeOf d

/-- Overlaying entries reads the document first and the tree second. -/
theorem lookup?_overlayEntries {t t' : EnumTree} {path : List String}
    {es : List (String × Document)} (hd : (Document.map es).Keyed)
    (h : t.overlayEntries path es = .ok t') (q : List String) :
    t'.lookup? q = ((Document.map es).constant? q).or (t.lookup? q) := by
  match es with
  | [] =>
    obtain rfl := Except.ok.inj h
    cases q <;> rfl
  | (key, d) :: es =>
    obtain ⟨hkey, hfirst, hes⟩ := keyed_cons.1 hd
    rw [overlayEntries_cons] at h
    split at h
    · next c hc =>
        have hrest := lookup?_overlayEntries hes h q
        cases q with
        | nil => exact hrest
        | cons p ps =>
          rw [hrest, lookup?_cons, child?_setChild, constant?, constant?, leaf?_cons]
          split
          · next hp =>
              subst hp
              rw [leaf?_of_notMem hkey, lookup?_cons, Option.getD_some, lookup?_overlay hfirst hc]
              rfl
          · rw [← lookup?_cons]
    · cases h
termination_by sizeOf es

end

/-! ### documents that are refused -/

mutual

/-- A document that is refused has a leaf that is no number, and the refusal names it. -/
theorem exists_leaf_of_overlay {t : EnumTree} {path : List String} {d : Document}
    {e : RegistryError} (hd : d.Keyed) (h : t.overlay path d = .error e) :
    ∃ q x, d.leaf? q = some x ∧ x.number? = none ∧
    e = .invalidEnum (".".intercalate (path ++ q)) x.shown := by
  by_cases hmap : ∃ es, d = .map es
  · obtain ⟨es, rfl⟩ := hmap
    exact exists_leaf_of_overlayEntries hd h
  · have hleaf := fun es heq => hmap ⟨es, heq⟩
    rw [overlay_of_leaf hleaf] at h
    split at h
    · cases h
    · next hnumber =>
        refine ⟨[], d, ?_, hnumber, ?_⟩
        · rw [leaf?_of_not_map hleaf, if_pos rfl]
        · rw [List.append_nil]
          exact (Except.error.inj h).symm
termination_by sizeOf d

/-- Entries are refused for a leaf that is no number, named by its path. -/
theorem exists_leaf_of_overlayEntries {t : EnumTree} {path : List String}
    {es : List (String × Document)} {e : RegistryError} (hd : (Document.map es).Keyed)
    (h : t.overlayEntries path es = .error e) :
    ∃ q x, (Document.map es).leaf? q = some x ∧ x.number? = none ∧
      e = .invalidEnum (".".intercalate (path ++ q)) x.shown := by
  match es with
  | [] => cases h
  | (key, d) :: es =>
    obtain ⟨hkey, hfirst, hes⟩ := keyed_cons.1 hd
    rw [overlayEntries_cons] at h
    split at h
    · next c hc =>
        obtain ⟨q, x, hx, hnumber, he⟩ := exists_leaf_of_overlayEntries hes h
        refine ⟨q, x, ?_, hnumber, he⟩
        cases q with
        | nil => cases hx
        | cons p ps =>
          rw [leaf?_cons, if_neg, hx]
          rintro rfl
          rw [leaf?_of_notMem hkey] at hx
          cases hx
    · next hc =>
        obtain ⟨q, x, hx, hnumber, he⟩ := exists_leaf_of_overlay hfirst hc
        refine ⟨key :: q, x, ?_, hnumber, ?_⟩
        · rw [leaf?_cons, if_pos rfl, hx]
        · rw [← Except.error.inj h, he, List.append_assoc]
          rfl
termination_by sizeOf es

end

mutual

/-- A document that is accepted has numbers for its leaves. -/
theorem numeric_of_overlay {t t' : EnumTree} {path : List String} {d : Document} (hd : d.Keyed)
    (h : t.overlay path d = .ok t') : d.Numeric := by
  by_cases hmap : ∃ es, d = .map es
  · obtain ⟨es, rfl⟩ := hmap
    exact numeric_of_overlayEntries hd h
  · have hleaf := fun es heq => hmap ⟨es, heq⟩
    rw [overlay_of_leaf hleaf] at h
    split at h
    · next hnumber => exact numeric_of_number hleaf hnumber
    · cases h
termination_by sizeOf d

/-- Entries that are accepted are numeric. -/
theorem numeric_of_overlayEntries {t t' : EnumTree} {path : List String}
    {es : List (String × Document)} (hd : (Document.map es).Keyed)
    (h : t.overlayEntries path es = .ok t') : (Document.map es).Numeric := by
  match es with
  | [] => exact numeric_nil
  | (key, d) :: es =>
    obtain ⟨hkey, hfirst, hes⟩ := keyed_cons.1 hd
    rw [overlayEntries_cons] at h
    split at h
    · next hc =>
          exact (numeric_cons hkey).2 ⟨numeric_of_overlay hfirst hc,
            numeric_of_overlayEntries hes h⟩
    · cases h
termination_by sizeOf es

end

/-! ### documents that lie over the tree already -/

theorem setChild_setChild (t : EnumTree) (key : String) (c : EnumTree) :
    (t.setChild key c).setChild key c = t.setChild key c := by
  simp only [setChild, children, value, putChild_eq_insertEntry, Table.insertEntry_insertEntry]

theorem setChild_comm {key key' : String} (h : key ≠ key') (t c c' : EnumTree) :
    (t.setChild key' c').setChild key c = (t.setChild key c).setChild key' c' := by
  simp only [setChild, children, value, putChild_eq_insertEntry, Table.insertEntry_comm h]

/-- A child stays in its place when entries of other names are laid over the tree. -/
theorem setChild_overlayEntries {path : List String} {key : String} {c : EnumTree}
    (hkey : key ∉ es.map (·.1)) (h : t.overlayEntries path es = .ok t')
    (hfixed : t.setChild key c = t) : t'.setChild key c = t' := by
  induction es generalizing t with
  | nil =>
    obtain rfl := Except.ok.inj h
    exact hfixed
  | cons e es ih =>
    obtain ⟨key', d⟩ := e
    rw [List.map_cons, List.mem_cons, not_or] at hkey
    rw [overlayEntries_cons] at h
    split at h
    · refine ih hkey.2 h ?_
      rw [setChild_comm hkey.1, hfixed]
    · cases h

mutual

/-- A document that lies over a tree adds nothing to it when it is laid over it again. -/
theorem overlay_overlay {t t' : EnumTree} {path : List String} {d : Document} (hd : d.Keyed)
    (h : t.overlay path d = .ok t') : t'.overlay path d = .ok t' := by
  by_cases hmap : ∃ es, d = .map es
  · obtain ⟨es, rfl⟩ := hmap
    exact overlayEntries_overlayEntries hd h
  · have hleaf := fun es heq => hmap ⟨es, heq⟩
    rw [overlay_of_leaf hleaf] at h ⊢
    split at h
    · obtain rfl := Except.ok.inj h
      rfl
    · cases h
termination_by sizeOf d

/-- Overlaying entries once more changes nothing. -/
theorem overlayEntries_overlayEntries {t t' : EnumTree} {path : List String}
    {es : List (String × Document)} (hd : (Document.map es).Keyed)
    (h : t.overlayEntries path es = .ok t') : t'.overlayEntries path es = .ok t' := by
  match es with
  | [] => rfl
  | (key, d) :: es =>
    obtain ⟨hkey, hfirst, hes⟩ := keyed_cons.1 hd
    rw [overlayEntries_cons] at h ⊢
    split at h
    · next c hc =>
        have hfixed := setChild_overlayEntries hkey h (t.setChild_setChild key c)
        have hchild : t'.child? key = some c := by
          rw [← hfixed, child?_setChild, if_pos rfl]
        rw [hchild, Option.getD_some, overlay_overlay hfirst hc]
        dsimp only
        rw [hfixed]
        exact overlayEntries_overlayEntries hes h
    · cases h
termination_by sizeOf es

end

mutual

/-- Whether a document can be laid over a tree is a matter of the document alone. -/
theorem overlay_accepted {t t' : EnumTree} {path : List String} {d : Document}
    (h : t.overlay path d = .ok t') (u : EnumTree) : ∃ u', u.overlay path d = .ok u' := by
  by_cases hmap : ∃ es, d = .map es
  · obtain ⟨es, rfl⟩ := hmap
    exact overlayEntries_accepted h u
  · have hleaf := fun es heq => hmap ⟨es, heq⟩
    rw [overlay_of_leaf hleaf] at h ⊢
    split at h
    · exact ⟨_, rfl⟩
    · cases h
termination_by sizeOf d

/-- Entries accepted over one tree are accepted over every other. -/
theorem overlayEntries_accepted {t t' : EnumTree} {path : List String}
    {es : List (String × Document)} (h : t.overlayEntries path es = .ok t') (u : EnumTree) :
    ∃ u', u.overlayEntries path es = .ok u' := by
  match es with
  | [] => exact ⟨u, rfl⟩
  | (key, d) :: es =>
    rw [overlayEntries_cons] at h ⊢
    split at h
    · next c hc =>
        obtain ⟨c', hc'⟩ := overlay_accepted hc ((u.child? key).getD empty)
        rw [hc']
        exact overlayEntries_accepted h _
    · cases h
termination_by sizeOf es

end

theorem merge_accepted {t t' : EnumTree} {es : List (String × Document)} (h : t.merge es = .ok t')
    (u : EnumTree) :
    ∃ u', u.merge es = .ok u' :=
  overlayEntries_accepted h u

/-! ## trees of constants -/

/-- The constants after some were merged into them, whether they were accepted or not. -/
def mergeAny (t : EnumTree) (entries : List (String × Document)) : EnumTree :=
  (t.merge entries).toOption.getD t

theorem merge_eq_overlay (t : EnumTree) (entries : List (String × Document)) :
    t.merge entries = t.overlay [] (inOrder (.map entries)) := rfl

section Merged

variable (hes : (Document.map es).Keyed)
include hes

/-- Constants are refused for a leaf that is no number, and for nothing else. -/
theorem merge_error_iff (t : EnumTree) :
    (∃ e, t.merge es = .error e) ↔ ¬ (Document.map es).Numeric := by
  have hkeyed := keyed_inOrder hes
  rw [merge_eq_overlay]
  constructor
  · rintro ⟨e, he⟩ hnumeric
    obtain ⟨q, x, hx, hnone, -⟩ := exists_leaf_of_overlay hkeyed he
    rw [leaf?_inOrder hes] at hx
    simpa [hnone] using hnumeric q x hx
  · intro hnot
    cases h : t.overlay [] (inOrder (.map es)) with
    | error e => exact ⟨e, rfl⟩
    | ok t' =>
      refine absurd (fun q x hx => numeric_of_overlay hkeyed h q x ?_) hnot
      rwa [leaf?_inOrder hes]

theorem lookup?_merge (h : t.merge es = .ok t') (path : List String) :
    t'.lookup? path = ((Document.map es).constant? path).or (t.lookup? path) := by
  rw [lookup?_overlay (keyed_inOrder hes) h, constant?, leaf?_inOrder hes]
  rfl

theorem merge_merge (h : t.merge es = .ok t') : t'.merge es = .ok t' :=
  overlay_overlay (keyed_inOrder hes) h

/-- Constants with numbers for leaves lie over any tree, and others change none. -/
theorem mergeAny_cases :
    (Document.map es).Numeric ∧
        (∀ t : EnumTree, ∀ path, (t.mergeAny es).lookup? path =
          ((Document.map es).constant? path).or (t.lookup? path)) ∨
      ¬ (Document.map es).Numeric ∧ ∀ t : EnumTree, t.mergeAny es = t := by
  by_cases hnumeric : (Document.map es).Numeric
  · refine .inl ⟨hnumeric, fun t path => ?_⟩
    unfold mergeAny
    cases h : t.merge es with
    | error e => exact absurd hnumeric ((merge_error_iff hes t).1 ⟨e, h⟩)
    | ok t' => exact lookup?_merge hes h path
  · refine .inr ⟨hnumeric, fun t => ?_⟩
    obtain ⟨e, he⟩ := (merge_error_iff hes t).2 hnumeric
    rw [mergeAny, he]
    rfl

/-- Merging once more changes nothing, whether or not the entries are accepted. -/
theorem mergeAny_mergeAny (t : EnumTree) : (t.mergeAny es).mergeAny es = t.mergeAny es := by
  rcases mergeAny_cases hes with ⟨hnumeric, -⟩ | ⟨-, hsame⟩
  · cases h : t.merge es with
    | error e => exact absurd hnumeric ((merge_error_iff hes t).1 ⟨e, h⟩)
    | ok t' =>
      have hmerged : t.mergeAny es = t' := by rw [mergeAny, h]; rfl
      rw [hmerged, mergeAny, merge_merge hes h]
      rfl
  · rw [hsame, hsame]

/-- Constants without a path in common can be merged in any order. -/
theorem lookup?_mergeAny_comm {es' : List (String × Document)} (hes' : (Document.map es').Keyed)
    (hapart : ∀ path, (Document.map es).leaf? path = none ∨ (Document.map es').leaf? path = none)
    (t : EnumTree) (path : List String) :
    ((t.mergeAny es).mergeAny es').lookup? path = ((t.mergeAny es').mergeAny es).lookup? path := by
  rcases mergeAny_cases hes with ⟨-, h⟩ | ⟨-, h⟩ <;> rcases mergeAny_cases hes' with ⟨-, h'⟩
    | ⟨-, h'⟩
  · rw [h', h, h, h']
    rcases hapart path with hnone | hnone
    · simp [constant?, hnone]
    · simp [constant?, hnone]
  · rw [h', h']
  · rw [h, h]
  · rw [h, h', h]

end Merged

end EnumTree

open EnumTree in
/-- Constants are refused if and only if one of their leaves is no number, and then every path
has the value that it had.  Otherwise a path with a leaf has the number of the leaf for its
value, and any other the value from before.  Merged twice they are as good as merged once, and
constants without a path in common can be merged in any order. -/
theorem constants_overlaid (t : EnumTree) {es : List (String × Document)}
    (hes : (Document.map es).Keyed) :
    ((∃ e, t.merge es = .error e) ↔ ∃ path x, (Document.map es).leaf? path = some x ∧
      x.number? = none) ∧
      (∀ e, t.merge es = .error e → t.mergeAny es = t) ∧
      (∀ t', t.merge es = .ok t' → t.mergeAny es = t' ∧ ∀ path, t'.lookup? path =
        match (Document.map es).leaf? path with
        | some x => x.number?
        | none => t.lookup? path) ∧
      (t.mergeAny es).mergeAny es = t.mergeAny es ∧
      ∀ es' : List (String × Document), (Document.map es').Keyed →
        (∀ path, (Document.map es).leaf? path = none ∨ (Document.map es').leaf? path = none) →
        ∀ path, ((t.mergeAny es).mergeAny es').lookup? path = ((t.mergeAny es').mergeAny es).lookup?
            path := by
  refine ⟨?_, fun e he => ?_, fun t' ht => ⟨?_, fun path => ?_⟩, mergeAny_mergeAny hes t,
    fun es' hes' hapart => lookup?_mergeAny_comm hes hes' hapart t⟩
  · rw [merge_error_iff hes]
    simp [Document.Numeric]
  · rw [mergeAny, he]
    rfl
  · rw [mergeAny, ht]
    rfl
  · have hnumeric : (Document.map es).Numeric := by
      by_contra hnot
      obtain ⟨e, he⟩ := (merge_error_iff hes t).2 hnot
      rw [ht] at he
      cases he
    rw [lookup?_merge hes ht, Document.constant?]
    cases hleaf : (Document.map es).leaf? path with
    | none => rfl
    | some x =>
      obtain ⟨v, hv⟩ := Option.isSome_iff_exists.1 (hnumeric path x hleaf)
      simp [hv]

/-- A name that is a constant itself gets one below it. -/
theorem nested_constant_overlaid :
    let t := EnumTree.empty.mergeAny [("blend", .float 1)]
    let es : List (String × Document) := [("blend", .map [("mode", .float 2)])]
    (Document.map es).Keyed ∧
      ∃ t', t.merge es = .ok t' ∧ t'.lookup? ["blend", "mode"] = some 2 ∧
          t'.lookup? ["blend"] = some 1 := by
  intro t es
  have hmode : (Document.float 2).Numeric := Document.numeric_of_number (by simp) rfl
  have hnumeric : (Document.map es).Numeric :=
    (Document.numeric_cons (by simp)).2
      ⟨(Document.numeric_cons (by simp)).2 ⟨hmode, Document.numeric_nil⟩, Document.numeric_nil⟩
  have hempty : (Document.map []).Keyed := .map .nil (by simp)
  have hes : (Document.map es).Keyed :=
    Document.keyed_cons.2 ⟨by simp, Document.keyed_cons.2 ⟨by simp, .leaf (by simp), hempty⟩,
      hempty⟩
  obtain ⟨herror, -, hok, -⟩ := constants_overlaid t hes
  cases h : t.merge es with
  | error e =>
    obtain ⟨path, x, hleaf, hnumber⟩ := herror.1 ⟨e, h⟩
    simpa [hnumber] using hnumeric path x hleaf
  | ok t' =>
    obtain ⟨-, hlookup⟩ := hok t' h
    refine ⟨hes, t', rfl, ?_, ?_⟩
    · rw [hlookup]
      rfl
    · have hone : t = EnumTree.empty.setChild "blend" (EnumTree.empty.setValue 1) := by
        simp [t, EnumTree.mergeAny, EnumTree.merge_eq_overlay, EnumTree.inOrder,
          EnumTree.entriesInOrder, Document.sortEntries, EnumTree.overlay, EnumTree.overlayEntries]
        rfl
      rw [hlookup, hone]
      rfl

end EffectChain
