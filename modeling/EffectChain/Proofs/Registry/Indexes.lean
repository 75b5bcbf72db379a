import EffectChain.Proofs.Catalog.FailedInstall
import EffectChain.Proofs.Plan.FlagGate
import Mathlib.Data.List.AList
import Mathlib.Data.List.Perm.Basic

/-!
# EffectChain.Proofs.Registry.Indexes

The records of a registry under three indexes.

A registry may hold its records by key, with the keys listed once more by name and by owner,
so that a bare name and an owner are found without a search (`Indexes`).  The three tables
are changed one after the other; they say the same as the one list of `Namespaces`
(`Indexes.Mirrors`), whatever is registered and removed (`Indexes.mirrors_after`), and that
is why they agree with each other.

* `Indexes.register_rejected` — a batch that is refused changes nothing;
* `Indexes.indexes_consistent` — what each index holds after any changes, what removing an
  owner does, and what names then refer to.
-/

namespace EffectChain

/-- What a record is known by: its namespace and its name. -/
abbrev ExportKey := String × String

/-! ## the tables -/

/-- Records by key, and the keys by name and by owner in the order of their registration. -/
structure Indexes where
  byKey : AList fun _ : ExportKey => Export := ∅
  byName : AList fun _ : String => List ExportKey := ∅
  byOwner : AList fun _ : String => List ExportKey := ∅
  /-- The state of every flag that has none of its own. -/
  flagsOn : Bool := true
  flags : Table Bool := {}

namespace Indexes

/-- The keys that are registered under a name. -/
def named (x : Indexes) (name : String) : List ExportKey := (x.byName.lookup name).getD []

/-- The keys of an owner. -/
def owned (x : Indexes) (owner : String) : List ExportKey := (x.byOwner.lookup owner).getD []

/-- The reason to refuse a record. -/
def refusal? (x : Indexes) (owner : String) (e : Export) : Option RegistryError :=
  if !e.isValid then some (.invalidExport e.space e.name)
  else match x.byKey.lookup e.key with
    | some prev =>
        if prev.owner ≠ owner then some (.duplicateExport e.canonical prev.owner) else none
    | none => none

/-- Puts a record of an owner under its key; a new key is listed last. -/
def add (owner : String) (x : Indexes) (e : Export) : Indexes :=
  let listed := if e.key ∈ x.byKey then x else
    { x with byName := x.byName.insert e.name (x.named e.name ++ [e.key])
             byOwner := x.byOwner.insert owner (x.owned owner ++ [e.key]) }
  { listed with byKey := listed.byKey.insert e.key { e with owner } }

/-- A change that may be refused.  A refusal keeps the tables as they are at that moment. -/
abbrev Changing := ExceptT RegistryError (StateM Indexes)

/-- Refuses a record of an owner if there is a reason to. -/
def check (owner : String) (e : Export) : Changing Unit := do
  match (← get).refusal? owner e with
  | some refusal => throw refusal
  | none => pure ()

/-- Adds records on behalf of an owner, after all of them were looked at. -/
def register (owner : String) (batch : List Export) : Changing Unit := do
  batch.forM (check owner)
  batch.forM fun e => modify (add owner · e)

/-- Takes a key out of the records and out of the keys of its name. -/
def forget (x : Indexes) (k : ExportKey) : Indexes :=
  let left := (x.named k.2).filter (· ≠ k)
  { x with byKey := x.byKey.erase k
           byName := if left.isEmpty then x.byName.erase k.2 else x.byName.insert k.2 left }

/-- Removes the records of an owner, and says how many there were. -/
def unregister (x : Indexes) (owner : String) : Nat × Indexes :=
  let keys := x.owned owner
  let left := keys.foldl forget x
  (keys.length, { left with byOwner := left.byOwner.erase owner })

/-- Whether a record is enabled. -/
def isActive (x : Indexes) (e : Export) : Bool := e.flag = "" || x.flags.getD e.flag x.flagsOn

/-- The record of a namespace and a name, if it is one of `active`. -/
def lookup (x : Indexes) (active : Export → Bool) (space name : String) : Option Export :=
  (x.byKey.lookup (space, name)).filter active

/-- The record a call refers to when the records of `active` are enabled.  A qualified name
is looked up directly; a bare one in the preferred namespaces, and then among the keys that
are registered under it. -/
def resolve (x : Indexes) (active : Export → Bool) (name : String)
    (preferred : Option (List String)) :
    Option Export :=
  match Text.cutLast? '.' name with
  | some (space, bare) => if space ≠ "" then x.lookup active space bare else unqualified
  | none => unqualified
where
  unqualified : Option Export :=
    match preferred with
    | none => some { name }
    | some spaces =>
      (spaces.findSome? (x.lookup active · name)).or
        ((x.named name).findSome? fun k => x.lookup active k.1 k.2)

end Indexes

/-! ## changes -/

/-- A change of a registry. -/
inductive RegistryChange where
  | register (owner : String) (batch : List Export)
  | unregister (owner : String)
  | setFlagsEnabled (on : Bool)
  | setFlag (flag : String) (on : Bool)
  | clearFlag (flag : String)

/-- The tables after one more change. -/
def Indexes.apply (x : Indexes) : RegistryChange → Indexes
  | .register owner batch => ((register owner batch).run.run x).2
  | .unregister owner => (x.unregister owner).2
  | .setFlagsEnabled on => { x with flagsOn := on }
  | .setFlag flag on => { x with flags := x.flags.insert flag on }
  | .clearFlag flag => { x with flags := x.flags.erase flag }

/-- The tables after some changes of an empty registry. -/
def Indexes.after (changes : List RegistryChange) : Indexes := changes.foldl apply {}

/-- The list of records after one more change. -/
def Namespaces.apply (n : Namespaces) : RegistryChange → Namespaces
  | .register owner batch => (n.register owner batch).toOption.getD n
  | .unregister owner => n.unregister owner
  | .setFlagsEnabled on => n.setFlagsEnabled on
  | .setFlag flag on => n.setFlag flag on
  | .clearFlag flag => n.clearFlag flag

/-- The list of records after some changes of an empty registry. -/
def Namespaces.after (changes : List RegistryChange) : Namespaces := changes.foldl apply {}

/-! ## a list of records -/

namespace Namespaces

variable {e r : Export} {rs : List Export}

/-- An export under a new key goes to the end. -/
theorem put_of_absent (h : rs.find? (·.key = e.key) = none) : put e rs = rs ++ [e] := by
  induction rs with
  | nil => rfl
  | cons r rs ih =>
    have hr : r.key ≠ e.key := by simpa using List.find?_eq_none.1 h r List.mem_cons_self
    rw [List.find?_cons_of_neg (by simpa using hr)] at h
    rw [put, if_neg hr, ih h, List.cons_append]

/-- A record that takes the place of one with its key is listed where that one was. -/
theorem map_key_filter_put {p : Export → Bool} (h : rs.find? (·.key = e.key) = some r)
    (hp : p e = p r) :
    ((put e rs).filter p).map Export.key = (rs.filter p).map Export.key := by
  induction rs with
  | nil => cases h
  | cons s rs ih =>
    by_cases hs : s.key = e.key
    · rw [List.find?_cons_of_pos (by simpa using hs)] at h
      obtain rfl := Option.some.inj h
      rw [put, if_pos hs, List.filter_cons, List.filter_cons, hp]
      split <;> simp [hs]
    · rw [List.find?_cons_of_neg (by simpa using hs)] at h
      rw [put, if_neg hs, List.filter_cons, List.filter_cons]
      split <;> simp [ih h]

/-- What a list with one more record lists: the key of the record too, if it is a new one. -/
theorem map_key_filter_put_eq {p : Export → Bool}
    (hp : ∀ r, rs.find? (·.key = e.key) = some r → p e = p r) :
    ((put e rs).filter p).map Export.key =
      (rs.filter p).map Export.key ++ if rs.find? (·.key = e.key) = none ∧
      p e then [e.key] else [] := by
  cases h : rs.find? (·.key = e.key) with
  | some r => simp [map_key_filter_put h (hp r h)]
  | none =>
    rw [put_of_absent h, List.filter_append, List.map_append]
    by_cases hpe : p e <;> simp [hpe]

/-- In a list without two records of one key, a record is what its key is looked up to. -/
theorem find?_key_iff {k : ExportKey} (h : (rs.map Export.key).Nodup) :
    rs.find? (·.key = k) = some e ↔ e ∈ rs ∧ e.key = k := by
  constructor
  · intro hfind
    exact ⟨List.mem_of_find?_eq_some hfind, by simpa using List.find?_some hfind⟩
  · rintro ⟨he, rfl⟩
    obtain ⟨r, hr⟩ :=
      Option.isSome_iff_exists.1 (List.find?_isSome (p := (·.key = e.key)) |>.2 ⟨e, he, by simp⟩)
    have hkey : r.key = e.key := by simpa using List.find?_some hr
    rw [hr, List.inj_on_of_nodup_map h (List.mem_of_find?_eq_some hr) he hkey]

/-- A key is left by a filter when its record passes. -/
theorem mem_map_key_filter_iff {k : ExportKey} {p : Export → Bool} (h : (rs.map Export.key).Nodup) :
    k ∈ (rs.filter p).map Export.key ↔ ∃ e, rs.find? (·.key = k) = some e ∧ p e := by
  simp only [List.mem_map, List.mem_filter, find?_key_iff h]
  constructor
  · rintro ⟨e, ⟨he, hp⟩, rfl⟩
    exact ⟨e, ⟨he, rfl⟩, hp⟩
  · rintro ⟨e, ⟨he, rfl⟩, hp⟩
    exact ⟨e, ⟨he, hp⟩, rfl⟩

/-- Finding among filtered records is filtering what is found. -/
theorem find?_filter_key {k : ExportKey} {p : Export → Bool} (h : (rs.map Export.key).Nodup) :
    (rs.filter p).find? (·.key = k) = (rs.find? (·.key = k)).filter p := by
  have hfilter : ((rs.filter p).map Export.key).Nodup :=
    h.sublist (List.filter_sublist.map Export.key)
  ext e
  rw [find?_key_iff hfilter, Option.filter_eq_some_iff, find?_key_iff h, List.mem_filter]
  tauto

end Namespaces

/-! ## a batch -/

namespace Indexes

variable {x y : Indexes} {n : Namespaces} {owner : String} {batch : List Export}
    {refusal : RegistryError}

/-- A change that goes on runs on what the first part left. -/
theorem run_bind {α β : Type} (m : Changing α) (f : α → Changing β) (x : Indexes) :
    (m >>= f).run.run x = match m.run.run x with
      | (.ok a, y) => (f a).run.run y
      | (.error refusal, y) => (.error refusal, y) := by
  change (match m.run.run x with
    | (r, y) => (ExceptT.bindCont f r : StateM Indexes _).run y) = _
  obtain ⟨r | a, y⟩ := m.run.run x <;> rfl

/-- Looking at the records of a batch changes nothing. -/
theorem run_check (x : Indexes) (owner : String) (batch : List Export) :
    (batch.forM (check owner)).run.run x = (match batch.findSome? (x.refusal? owner) with
      | some refusal => .error refusal
      | none => .ok (), x) := by
  induction batch with
  | nil => rfl
  | cons e batch ih =>
    have hfirst : (check owner e).run.run x = (match x.refusal? owner e with
        | some refusal => .error refusal
        | none => .ok (), x) := by
      unfold check
      rw [run_bind]
      change (match x.refusal? owner e with
        | some refusal => throw refusal
        | none => pure () : Changing Unit).run.run x = _
      split <;> rfl
    have hcons := run_bind (check owner e) (fun _ => batch.forM (check owner)) x
    rw [hfirst] at hcons
    rw [List.findSome?_cons]
    refine hcons.trans ?_
    cases x.refusal? owner e with
    | some refusal => rfl
    | none => exact ih

/-- The exports of a batch are added one after the other, and none of them is refused. -/
theorem run_add (x : Indexes) (owner : String) (batch : List Export) :
    (batch.forM (m := Changing) fun e => modify (add owner · e)).run.run x =
      (.ok (), batch.foldl (add owner) x) := by
  induction batch generalizing x with
  | nil => rfl
  | cons e batch ih => exact ih (x.add owner e)

/-- A batch is refused for its first record that is, or added. -/
theorem run_register (x : Indexes) (owner : String) (batch : List Export) :
    (register owner batch).run.run x = match batch.findSome? (x.refusal? owner) with
      | some refusal => (.error refusal, x)
      | none => (.ok (), batch.foldl (add owner) x) := by
  unfold register
  rw [run_bind, run_check]
  cases batch.findSome? (x.refusal? owner) with
  | some refusal => rfl
  | none => exact run_add x owner batch

/-- A batch that is refused changes nothing. -/
theorem register_rejected (h : (register owner batch).run.run x = (.error refusal, y)) : y = x := by
  rw [run_register] at h
  split at h
  · exact (Prod.mk.inj h).2.symm
  · cases h

/-! ## one list for all three -/

/-- The tables hold the records of a list: each under its key, the keys of a name and of an
owner in the order of the list. -/
structure Mirrors (x : Indexes) (n : Namespaces) : Prop where
  byKey : ∀ k, x.byKey.lookup k = n.find? k
  byName : ∀ name, x.named name = (n.records.filter (·.name = name)).map Export.key
  byOwner : ∀ owner, x.owned owner = (n.ownedBy owner).map Export.key
  flagsOn : x.flagsOn = n.flagsOn
  flags : x.flags = n.flags

/-! ### a record more -/

section Tables

variable {α β : Type} [DecidableEq α]

/-- Looking up after an insertion. -/
@[simp] theorem lookup_insert_eq (t : AList fun _ : α => β) (k k' : α) (v : β) :
    (t.insert k v).lookup k' = if k' = k then some v else t.lookup k' := by
  split
  · next h => exact h ▸ AList.lookup_insert t
  · next h => exact AList.lookup_insert_ne h

/-- Looking up after an erasure. -/
@[simp] theorem lookup_erase_eq (t : AList fun _ : α => β) (k k' : α) :
    (t.erase k).lookup k' = if k' = k then none else t.lookup k' := by
  split
  · next h => exact h ▸ AList.lookup_erase k t
  · next h => exact AList.lookup_erase_ne h

end Tables

theorem lookup_add (x : Indexes) (owner : String) (e : Export) (k : ExportKey) :
    (x.add owner e).byKey.lookup k = if k = e.key then some { e with owner }
      else x.byKey.lookup k := by
  unfold add
  split <;> exact lookup_insert_eq _ _ _ _

/-- An added export is listed under its name, unless its key was known. -/
theorem named_add (x : Indexes) (owner : String) (e : Export) (name : String) :
    (x.add owner e).named name =
      x.named name ++ if e.key ∉ x.byKey ∧ e.name = name then [e.key] else [] := by
  by_cases hkey : e.key ∈ x.byKey
  · simp [add, named, hkey]
  · by_cases hname : name = e.name
    · subst hname
      simp [add, named, hkey]
    · simp [add, named, hkey, hname, Ne.symm hname]

/-- An added export is listed under its owner, unless its key was known. -/
theorem owned_add (x : Indexes) (owner owner' : String) (e : Export) :
    (x.add owner e).owned owner' =
      x.owned owner' ++ if e.key ∉ x.byKey ∧ owner = owner' then [e.key] else [] := by
  by_cases hkey : e.key ∈ x.byKey
  · simp [add, owned, hkey]
  · by_cases howner : owner' = owner
    · subst howner
      simp [add, owned, hkey]
    · simp [add, owned, hkey, howner, Ne.symm howner]

theorem Mirrors.notMem_iff (h : Mirrors x n) (k : ExportKey) : k ∉ x.byKey ↔ n.find? k = none := by
  rw [← h.byKey, AList.lookup_eq_none]

/-- A record more, under a key that no other owner holds. -/
theorem Mirrors.add {e : Export} (h : Mirrors x n)
    (hown : ∀ r, n.find? e.key = some r → r.owner = owner) :
    Mirrors (x.add owner e) { n with records := Namespaces.put { e with owner } n.records } where
  byKey k := by
    have hput := Namespaces.find?_put { e with owner } n.records k
    rw [lookup_add, h.byKey]
    exact (if_congr eq_comm rfl rfl).trans hput.symm
  byName name := by
    have hname : ∀ r, n.find? e.key = some r → decide (e.name = name) = decide (r.name = name) := by
      intro r hr
      have hkey : r.key = e.key := by simpa using List.find?_some hr
      rw [(Prod.mk.inj hkey).2]
    rw [named_add, h.byName]
    refine Eq.trans ?_
      (Namespaces.map_key_filter_put_eq (e := { e with owner }) (p := (·.name = name)) hname).symm
    simp only [h.notMem_iff, decide_eq_true_eq]
    rfl
  byOwner owner' := by
    have howner : ∀ r, n.find? e.key = some r →
        decide (owner = owner') = decide (r.owner = owner') := by
      intro r hr
      rw [hown r hr]
    rw [owned_add, h.byOwner]
    refine Eq.trans ?_ (Namespaces.map_key_filter_put_eq (e := { e with owner })
      (p := (·.owner = owner')) howner).symm
    simp only [h.notMem_iff, decide_eq_true_eq]
    rfl
  flagsOn := by unfold Indexes.add; split <;> exact h.flagsOn
  flags := by unfold Indexes.add; split <;> exact h.flags

/-! ### an owner less -/

/-- Forgotten keys are not found. -/
theorem lookup_foldl_forget (keys : List ExportKey) (x : Indexes) (k : ExportKey) :
    (keys.foldl forget x).byKey.lookup k = if k ∈ keys then none else x.byKey.lookup k := by
  induction keys generalizing x with
  | nil => rfl
  | cons k' keys ih =>
    rw [List.foldl_cons, ih, forget, lookup_erase_eq]
    by_cases hk : k = k' <;> by_cases hmem : k ∈ keys <;> simp [hk, hmem]

/-- Forgetting a key takes it off the list of its name. -/
theorem named_forget {name : String} (h : ∀ k ∈ x.named name, k.2 = name) (k : ExportKey) :
    (x.forget k).named name = (x.named name).filter (· ≠ k) := by
  by_cases hname : name = k.2
  · subst hname
    unfold forget
    dsimp only
    split
    · next hleft =>
        rw [List.isEmpty_iff.1 hleft]
        simp [named]
    · simp [named]
  · have hall : (x.named name).filter (· ≠ k) = x.named name := by
      refine List.filter_eq_self.2 fun k' hk' => ?_
      have hne : k' ≠ k := fun heq => hname ((h k' hk').symm.trans (heq ▸ rfl))
      simpa using hne
    rw [hall]
    unfold forget named
    dsimp only
    split <;> simp [hname]

/-- Forgetting keys takes them off the list of their name. -/
theorem named_foldl_forget {name : String} (keys : List ExportKey)
    (h : ∀ k ∈ x.named name, k.2 = name) :
    (keys.foldl forget x).named name = (x.named name).filter (· ∉ keys) := by
  induction keys generalizing x with
  | nil => simp
  | cons k keys ih =>
    have hleft := named_forget h k
    rw [List.foldl_cons, ih, hleft, List.filter_filter]
    · refine List.filter_congr fun k' _ => ?_
      simp [Bool.and_comm]
    · rw [hleft]
      exact fun k' hk' => h k' (List.mem_of_mem_filter hk')

/-- Forgetting keys touches neither owners nor flags. -/
theorem owners_foldl_forget (keys : List ExportKey) (x : Indexes) :
    (keys.foldl forget x).byOwner = x.byOwner ∧ (keys.foldl forget x).flagsOn = x.flagsOn ∧
      (keys.foldl forget x).flags = x.flags := by
  induction keys generalizing x with
  | nil => exact ⟨rfl, rfl, rfl⟩
  | cons k keys ih => exact ih (x.forget k)

/-- The records of an owner are gone. -/
theorem Mirrors.unregister (h : Mirrors x n) (hn : (n.records.map Export.key).Nodup)
    (owner : String) :
    Mirrors (x.unregister owner).2 (n.unregister owner) := by
  obtain ⟨howners, hon, hflags⟩ := owners_foldl_forget (x.owned owner) x
  have hmem : ∀ k, k ∈ x.owned owner ↔ ∃ e, n.find? k = some e ∧ e.owner = owner := by
    intro k
    rw [h.byOwner, Namespaces.ownedBy, Namespaces.mem_map_key_filter_iff hn]
    simp [Namespaces.find?]
  refine ⟨fun k => ?_, fun name => ?_, fun owner' => ?_, hon.trans h.flagsOn, hflags.trans h.flags⟩
  · have hfind := Namespaces.find?_filter_key (k := k) (p := (·.owner ≠ owner)) hn
    change ((x.owned owner).foldl forget x).byKey.lookup k = _
    rw [lookup_foldl_forget, h.byKey]
    refine Eq.trans ?_ hfind.symm
    simp only [hmem]
    change _ = (n.find? k).filter _
    cases n.find? k with
    | none => simp
    | some e => by_cases he : e.owner = owner <;> simp [he, Option.filter_some]
  · change ((x.owned owner).foldl forget x).named name = _
    have hname : ∀ k ∈ x.named name, k.2 = name := by
      intro k hk
      rw [h.byName] at hk
      obtain ⟨e, he, rfl⟩ := List.mem_map.1 hk
      simpa [Export.key] using List.of_mem_filter he
    rw [named_foldl_forget _ hname, h.byName, List.filter_map, List.filter_filter,
      Namespaces.unregister]
    dsimp only
    rw [List.filter_filter]
    congr 1
    refine List.filter_congr fun e he => ?_
    have hfind : n.find? e.key = some e := (Namespaces.find?_key_iff hn).2 ⟨he, rfl⟩
    simp [hmem, hfind, Bool.and_comm]
  · have hleft : (x.unregister owner).2.owned owner' = if owner' = owner then []
        else x.owned owner' := by
      change (((((x.owned owner).foldl forget x).byOwner.erase owner).lookup owner').getD []) = _
      rw [howners, lookup_erase_eq, owned]
      split <;> rfl
    have hsame : (n.unregister owner).ownedBy owner' = if owner' = owner then []
        else n.ownedBy owner' := by
      unfold Namespaces.unregister Namespaces.ownedBy
      dsimp only
      rw [List.filter_filter]
      split
      · next howner =>
          subst howner
          simp
      · next howner =>
          refine List.filter_congr fun e _ => ?_
          by_cases he : e.owner = owner' <;> simp [he, howner]
    rw [hleft, hsame, h.byOwner]
    split <;> rfl

/-! ## what the tables say -/

/-- What a name refers to depends on the records that are found under keys and names. -/
theorem resolve_congr {active active' : Export → Bool}
    (hlookup : ∀ space bare, x.lookup active space bare = y.lookup active' space bare)
    (hnamed : ∀ bare, (x.named bare).findSome? (fun k => x.lookup active k.1 k.2) =
      (y.named bare).findSome? fun k => y.lookup active' k.1 k.2)
    (name : String) (preferred : Option (List String)) :
    x.resolve active name preferred = y.resolve active' name preferred := by
  unfold resolve resolve.unqualified
  rw [hnamed name]
  simp only [hlookup]

section Agreement

variable (h : Mirrors x n) (hn : (n.records.map Export.key).Nodup)
include h hn

/-- The list of a name has the known keys of that name. -/
theorem Mirrors.mem_named_iff (k : ExportKey) (name : String) :
    k ∈ x.named name ↔ k ∈ x.byKey ∧ k.2 = name := by
  have hkeep : (∃ e, n.find? k = some e ∧ decide (e.name = name) = true) ↔ k ∈ x.byKey ∧
      k.2 = name := by
    rw [← AList.lookup_isSome, h.byKey, Option.isSome_iff_exists, ← exists_and_right]
    refine exists_congr fun e => and_congr_right fun he => ?_
    have hkey : e.key = k := by simpa using List.find?_some he
    rw [decide_eq_true_eq, ← hkey]
    rfl
  rw [h.byName, Namespaces.mem_map_key_filter_iff hn]
  exact hkeep

theorem Mirrors.mem_owned_iff (k : ExportKey) (owner : String) :
    k ∈ x.owned owner ↔ ∃ e ∈ x.byKey.lookup k, e.owner = owner := by
  rw [h.byOwner, Namespaces.ownedBy, Namespaces.mem_map_key_filter_iff hn, h.byKey]
  simp [Namespaces.find?]

theorem Mirrors.nodup_owned (owner : String) : (x.owned owner).Nodup :=
  h.byOwner owner ▸ hn.sublist (List.filter_sublist.map Export.key)

/-- A key is listed under its name if it is held, once, and under no other name. -/
theorem Mirrors.count_named (k : ExportKey) (name : String) :
    (x.named name).count k = if k ∈ x.byKey ∧ k.2 = name then 1 else 0 := by
  have hnodup : (x.named name).Nodup :=
    h.byName name ▸ hn.sublist (List.filter_sublist.map Export.key)
  rw [hnodup.count, if_congr (h.mem_named_iff hn k name) rfl rfl]

/-- A key is listed under the owner of its record, once, and under no other owner. -/
theorem Mirrors.count_owned (k : ExportKey) (owner : String) :
    (x.owned owner).count k = if ∃ e ∈ x.byKey.lookup k, e.owner = owner then 1 else 0 := by
  rw [(h.nodup_owned hn owner).count, if_congr (h.mem_owned_iff hn k owner) rfl rfl]

/-- An owner has as many keys as records. -/
theorem Mirrors.length_owned (owner : String) :
    (x.owned owner).length = x.byKey.entries.countP fun r => r.2.owner = owner := by
  have hkeys : ((x.byKey.entries.filter fun r => r.2.owner = owner).map Sigma.fst).Nodup :=
    x.byKey.keys_nodup.sublist (List.filter_sublist.map Sigma.fst)
  have hperm := (List.perm_ext_iff_of_nodup (h.nodup_owned hn owner) hkeys).2 fun k => by
    rw [h.mem_owned_iff hn]
    simp [← AList.mem_lookup_iff, and_comm]
  rw [hperm.length_eq, List.length_map, List.countP_eq_length_filter]

/-- The keys of a name lead to its records in the order of the list. -/
theorem Mirrors.findSome?_named (active : Export → Bool) (name : String) :
    (x.named name).findSome? (fun k => x.lookup active k.1 k.2) =
      (n.records.filter (·.name = name)).find? active := by
  have hall : ∀ rs : List Export, (∀ r ∈ rs, r ∈ n.records) →
      (rs.map Export.key).findSome? (fun k => x.lookup active k.1 k.2) = rs.find? active := by
    intro rs hrs
    induction rs with
    | nil => rfl
    | cons r rs ih =>
      obtain ⟨hr, hrs⟩ := List.forall_mem_cons.1 hrs
      have hfound : x.lookup active r.key.1 r.key.2 = if active r then some r else none := by
        have hkey : n.find? r.key = some r := (Namespaces.find?_key_iff hn).2 ⟨hr, rfl⟩
        unfold Indexes.lookup
        rw [h.byKey, hkey, Option.filter_some]
      rw [List.map_cons, List.findSome?_cons, List.find?_cons, hfound, ih hrs]
      cases active r <;> rfl
  rw [h.byName]
  exact hall _ fun r hr => List.mem_of_mem_filter hr

/-- Names refer to the records of the list. -/
theorem Mirrors.resolve (name : String) (preferred : Option (List String)) :
    x.resolve x.isActive name preferred = n.resolve name preferred := by
  have hactive : x.isActive = n.isActive := by
    funext e
    unfold Indexes.isActive Namespaces.isActive
    rw [h.flags, h.flagsOn]
  have hlookup : ∀ space bare, x.lookup n.isActive space bare = n.lookup space bare := by
    intro space bare
    unfold Indexes.lookup Namespaces.lookup
    rw [h.byKey]
  have hnamed := h.findSome?_named hn n.isActive name
  simp only [hlookup] at hnamed
  rcases hcut : Text.cutLast? '.' name with _ | ⟨space, bare⟩ <;> cases preferred <;>
    simp only [Indexes.resolve, Indexes.resolve.unqualified, Namespaces.resolve,
      Namespaces.resolve.unqualified, Namespaces.resolveBare, hcut, hactive, hlookup, hnamed]

/-- Without the records of an owner, names refer to what they would refer to were the
records disabled. -/
theorem Mirrors.resolve_unregister (owner name : String) (preferred : Option (List String)) :
    (x.unregister owner).2.resolve (x.unregister owner).2.isActive name preferred =
      x.resolve (fun e => x.isActive e && e.owner ≠ owner) name preferred := by
  have hleft := h.unregister hn owner
  have hnodup : ((n.unregister owner).records.map Export.key).Nodup :=
    hn.sublist (List.filter_sublist.map Export.key)
  have hactive : (x.unregister owner).2.isActive = x.isActive := by
    funext e
    unfold Indexes.isActive
    rw [hleft.flags, hleft.flagsOn, h.flags, h.flagsOn]
    rfl
  have hlookup : ∀ space bare, (x.unregister owner).2.lookup x.isActive space bare =
      x.lookup (fun e => x.isActive e && e.owner ≠ owner) space bare := by
    intro space bare
    have hfind : (n.unregister owner).find? (space, bare) = (n.find? (space, bare)).filter
        (·.owner ≠ owner) :=
      Namespaces.find?_filter_key hn
    unfold Indexes.lookup
    rw [hleft.byKey, hfind, h.byKey, Option.filter_filter]
    simp only [Bool.and_comm]
  have hnamed : ∀ bare, ((x.unregister owner).2.named bare).findSome? (fun k =>
      (x.unregister owner).2.lookup x.isActive k.1 k.2) =
      (x.named bare).findSome? fun k =>
          x.lookup (fun e => x.isActive e && e.owner ≠ owner) k.1 k.2 := by
    intro bare
    rw [hleft.findSome?_named hnodup, h.findSome?_named hn, Namespaces.unregister]
    dsimp only
    rw [List.filter_filter, List.find?_filter, List.find?_filter]
    congr 1
    funext e
    simp [Bool.and_comm, Bool.and_assoc]
  rw [hactive]
  exact resolve_congr hlookup hnamed name preferred

end Agreement

/-! ## any changes -/

/-- A batch is refused by the tables for the reason it is refused by the list. -/
theorem Mirrors.refusal? (h : Mirrors x n) (owner : String) (batch : List Export) :
    batch.findSome? (x.refusal? owner) = n.refusal? owner batch := by
  unfold Namespaces.refusal?
  congr 1
  funext e
  cases hfind : n.find? e.key <;> simp only [Indexes.refusal?, h.byKey, hfind]

/-- Adding a batch keeps index and records alike. -/
theorem Mirrors.foldl_add (h : Mirrors x n)
    (hown : ∀ e ∈ batch, ∀ r, n.find? e.key = some r → r.owner = owner) :
    Mirrors (batch.foldl (Indexes.add owner) x)
      { n with records := batch.foldl (fun rs e => Namespaces.put { e with owner } rs)
                 n.records } := by
  induction batch generalizing x n with
  | nil => exact h
  | cons e batch ih =>
    refine ih (h.add (hown e List.mem_cons_self)) fun e' he' r hr => ?_
    have hput := Namespaces.find?_put { e with owner } n.records e'.key
    rw [Namespaces.find?, hput] at hr
    split at hr
    · exact Option.some.inj hr ▸ rfl
    · exact hown e' (List.mem_cons_of_mem e he') r hr

/-- Every change keeps index and records alike. -/
theorem Mirrors.apply (h : Mirrors x n) (hn : (n.records.map Export.key).Nodup)
    (c : RegistryChange) :
    Mirrors (x.apply c) (n.apply c) := by
  cases c with
  | register owner batch =>
    have hreason := h.refusal? owner batch
    unfold Indexes.apply Namespaces.apply Namespaces.register
    dsimp only
    rw [run_register, hreason]
    cases haccepted : n.refusal? owner batch with
    | some refusal => exact h
    | none => exact h.foldl_add fun e he r hr => Namespaces.owner_of_accepted haccepted he hr
  | unregister owner => exact h.unregister hn owner
  | setFlagsEnabled on => exact ⟨h.byKey, h.byName, h.byOwner, rfl, h.flags⟩
  | setFlag flag on =>
      exact ⟨h.byKey, h.byName, h.byOwner, h.flagsOn, congrArg (·.insert flag on) h.flags⟩
  | clearFlag flag =>
      exact ⟨h.byKey, h.byName, h.byOwner, h.flagsOn, congrArg (·.erase flag) h.flags⟩

end Indexes

/-- Every change leaves namespaces that are built by changes. -/
theorem Namespaces.Built.apply {n : Namespaces} (h : n.Built) (c : RegistryChange) :
    (n.apply c).Built := by
  cases c with
  | register owner batch =>
    unfold Namespaces.apply
    dsimp only
    cases hr : n.register owner batch with
    | error refusal => exact h
    | ok n' => exact h.register hr
  | unregister owner => exact h.unregister owner
  | setFlagsEnabled on => exact h.setFlagsEnabled on
  | setFlag flag on => exact h.setFlag flag on
  | clearFlag flag => exact h.clearFlag flag

/-- The tables and the list hold the same records after the same changes. -/
theorem Indexes.mirrors_after (changes : List RegistryChange) :
    Mirrors (after changes) (Namespaces.after changes) ∧
      ((Namespaces.after changes).records.map Export.key).Nodup := by
  have hall : ∀ x n, Mirrors x n → n.Built →
      Mirrors (changes.foldl apply x) (changes.foldl Namespaces.apply n) ∧
      (changes.foldl Namespaces.apply n).Built := by
    induction changes with
    | nil => exact fun x n h hn => ⟨h, hn⟩
    | cons c changes ih => exact fun x n h hn => ih _ _ (h.apply hn.sound.nodup c) (hn.apply c)
  have hempty : Mirrors {} {} := ⟨fun _ => rfl, fun _ => rfl, fun _ => rfl, rfl, rfl⟩
  obtain ⟨h, hn⟩ := hall {} {} hempty .empty
  exact ⟨h, hn.sound.nodup⟩

/-- After any changes of an empty registry: a key is listed under its name exactly when it is
held, once, and under the owner of its record, once, and nowhere else.  A batch that is
refused changes nothing.  Removing an owner removes its records and no others, and says how
many they were; names then refer to what they would refer to were those records disabled.
The tables answer as the list of the records does after the same changes. -/
theorem Indexes.indexes_consistent (changes : List RegistryChange) :
    let x := Indexes.after changes
    let n := Namespaces.after changes
    (∀ k name, (x.named name).count k = if k ∈ x.byKey ∧ k.2 = name then 1 else 0) ∧
    (∀ k owner, (x.owned owner).count k = if ∃ e ∈ x.byKey.lookup k,
      e.owner = owner then 1 else 0) ∧
    (∀ owner batch refusal y, (register owner batch).run.run x = (.error refusal, y) → y = x) ∧
    (∀ owner, (x.unregister owner).1 = x.byKey.entries.countP (fun r => r.2.owner = owner) ∧
      ∀ k, (x.unregister owner).2.byKey.lookup k = (x.byKey.lookup k).filter (·.owner ≠ owner)) ∧
    (∀ owner name preferred, (x.unregister owner).2.resolve (x.unregister owner).2.isActive name
      preferred =
      x.resolve (fun e => x.isActive e && e.owner ≠ owner) name preferred) ∧
    (∀ k, x.byKey.lookup k = n.find? k) ∧
    (∀ owner batch, ((register owner batch).run.run x).1 = (n.register owner batch).map fun _ =>
      ()) ∧
    ∀ name preferred, x.resolve x.isActive name preferred = n.resolve name preferred := by
  intro x n
  obtain ⟨h, hn⟩ := mirrors_after changes
  refine ⟨h.count_named hn, h.count_owned hn, fun owner batch refusal y => register_rejected,
    fun owner => ⟨?_, ?_⟩, h.resolve_unregister hn, h.byKey, fun owner batch => ?_, h.resolve hn⟩
  · exact h.length_owned hn owner
  · intro k
    rw [(h.unregister hn owner).byKey, h.byKey]
    exact Namespaces.find?_filter_key hn
  · rw [run_register, h.refusal?, Namespaces.register]
    cases n.refusal? owner batch <;> rfl

end EffectChain
