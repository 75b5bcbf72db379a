import EffectChain.Proofs.Catalog.FailedInstall
import EffectChain.Proofs.Plan.FlagGate

/-!
# EffectChain.Proofs.Registry.Reordered

An owner whose records go behind all others.

An owner that takes its records away and registers them again has them last
(`Namespaces.register_unregister`).  Each name with its namespace still refers to the record that
it did, and so does a bare name that a preferred namespace has.  Any other bare name refers to
the first active record under it, and that is another one if it was the owner's and not the only
one (`Namespaces.Displaced`).

* `Namespaces.resolve_moveLast`, `Namespaces.resolve_of_displaced` — what every name refers to
  afterwards.
-/

namespace EffectChain.Namespaces

/-- The names with the records of an owner behind all others. -/
def moveLast (n : Namespaces) (owner : String) : Namespaces :=
  { n with records := n.records.filter (·.owner ≠ owner) ++ n.ownedBy owner }

variable {n n' : Namespaces} {owner name : String} {e : Export} {rs : List Export}

@[simp] theorem isActive_moveLast (n : Namespaces) (owner : String) (e : Export) :
    (n.moveLast owner).isActive e = n.isActive e := rfl

@[simp] theorem isActive_unregister (n : Namespaces) (owner : String) (e : Export) :
    (n.unregister owner).isActive e = n.isActive e := rfl

theorem moveLast_perm (n : Namespaces) (owner : String) :
    (n.moveLast owner).records.Perm n.records := by
  have hparts := List.filter_append_perm (fun e : Export => decide (e.owner = owner)) n.records
  refine (List.perm_append_comm.trans ?_)
  simpa [ownedBy] using hparts

theorem Sound.of_perm {rs' : List Export} (h : Sound rs) (hperm : rs'.Perm rs) : Sound rs' where
  valid e he := h.valid e (hperm.mem_iff.1 he)
  nodup := (hperm.map Export.key).nodup_iff.2 h.nodup

/-! ## registering again -/

/-- A record with a new key goes behind all others. -/
theorem put_append {e : Export} {rs : List Export} (h : e.key ∉ rs.map Export.key)
    (xs : List Export) :
    put e (rs ++ xs) = rs ++ put e xs := by
  induction rs with
  | nil => rfl
  | cons r rs ih =>
    rw [List.map_cons, List.mem_cons, not_or] at h
    rw [List.cons_append, put, if_neg (Ne.symm h.1), ih h.2, List.cons_append]

/-- Putting exports under keys that are new in front leaves what stands there. -/
theorem foldl_put_append {batch rs : List Export} (owner : String)
    (h : ∀ e ∈ batch, e.key ∉ rs.map Export.key) (xs : List Export) :
    batch.foldl (fun rs e => put { e with owner } rs) (rs ++ xs) =
      rs ++ batch.foldl (fun rs e => put { e with owner } rs) xs := by
  induction batch generalizing xs with
  | nil => rfl
  | cons e batch ih =>
    obtain ⟨he, hbatch⟩ := List.forall_mem_cons.1 h
    rw [List.foldl_cons, put_append (e := { e with owner }) he, ih hbatch]
    rfl

/-- The records of a batch on behalf of an owner, where nothing else is. -/
def together (owner : String) (batch : List Export) : List Export :=
  batch.foldl (fun rs e => put { e with owner } rs) []

/-- Putting an export adds its key. -/
theorem mem_keys_put {key : String × String} :
    key ∈ (put e rs).map Export.key ↔ key = e.key ∨ key ∈ rs.map Export.key := by
  induction rs with
  | nil => simp [put]
  | cons r rs ih =>
    unfold put
    split
    · next hkey => simp [hkey]
    · rw [List.map_cons, List.mem_cons, ih, List.map_cons, List.mem_cons, or_left_comm]

/-- A batch has the keys of its exports. -/
theorem mem_keys_together {batch : List Export} {key : String × String} :
    key ∈ (together owner batch).map Export.key ↔ key ∈ batch.map Export.key := by
  have hfold : ∀ (batch rs : List Export),
      key ∈ (batch.foldl (fun rs e => put { e with owner } rs) rs).map Export.key ↔
        key ∈ batch.map Export.key ∨ key ∈ rs.map Export.key := by
    intro batch
    induction batch with
    | nil => simp
    | cons e batch ih =>
      intro rs
      rw [List.foldl_cons, ih, mem_keys_put, List.map_cons, List.mem_cons, or_left_comm, or_assoc]
      rfl
  simpa [together] using hfold batch []

/-- An owner can take its records away and register them again, and has them last. -/
theorem register_unregister {batch : List Export} (hs : Sound n.records)
    (howned : n.ownedBy owner = together owner batch) (hvalid : ∀ e ∈ batch, e.isValid = true) :
    (n.unregister owner).register owner batch = .ok (n.moveLast owner) := by
  -- the keys of the batch are the owner's, so that no other record has one of them
  have hfree : ∀ e ∈ batch, e.key ∉ (n.unregister owner).records.map Export.key := by
    intro e he hmem
    obtain ⟨r, hr, hkey⟩ := List.mem_map.1 hmem
    obtain ⟨hr, hother⟩ := List.mem_filter.1 hr
    have htogether : e.key ∈ (n.ownedBy owner).map Export.key := by
      rw [howned, mem_keys_together]
      exact List.mem_map_of_mem he
    obtain ⟨r', hr', hkey'⟩ := List.mem_map.1 htogether
    obtain ⟨hr', hown⟩ := List.mem_filter.1 hr'
    obtain rfl := hs.eq_of_key hr hr' (hkey.trans hkey'.symm)
    simp [of_decide_eq_true hown] at hother
  have haccepted : (n.unregister owner).refusal? owner batch = none := by
    refine List.findSome?_eq_none_iff.2 fun e he => ?_
    have hnone : (n.unregister owner).find? e.key = none := by
      refine List.find?_eq_none.2 fun r hr hkey => hfree e he ?_
      exact List.mem_map.2 ⟨r, hr, by simpa using hkey⟩
    simp [hvalid e he, hnone]
  have hrecords := foldl_put_append owner hfree []
  rw [List.append_nil] at hrecords
  rw [register, haccepted]
  dsimp only
  rw [hrecords]
  show Except.ok _ = Except.ok _
  rw [moveLast, howned]
  rfl

/-! ## the records of an owner -/

section owners

variable {other : String} {batch : List Export}

/-- Taking out one owner's records leaves those of the others. -/
theorem ownedBy_unregister (n : Namespaces) (h : other ≠ owner) :
    (n.unregister owner).ownedBy other = n.ownedBy other := by
  rw [ownedBy, unregister, List.filter_filter]
  refine List.filter_congr fun e _ => ?_
  by_cases he : e.owner = other <;> simp [he, h]

/-- Registering for one owner leaves the records of the others. -/
theorem ownedBy_register (hr : n.register owner batch = .ok n') (h : other ≠ owner) :
    n'.ownedBy other = n.ownedBy other := by
  rw [← ownedBy_unregister n' h, unregister_register hr, ownedBy_unregister n h]

/-- Every record of a batch has its owner. -/
theorem owner_of_together {e : Export} (he : e ∈ together owner batch) : e.owner = owner := by
  have hfold : ∀ (batch rs : List Export), (∀ e ∈ rs, e.owner = owner) →
      ∀ e ∈ batch.foldl (fun rs e => put { e with owner } rs) rs, e.owner = owner := by
    intro batch
    induction batch with
    | nil => exact fun rs hrs => hrs
    | cons e batch ih =>
      refine fun rs hrs => ih _ fun x hx => ?_
      rcases mem_put hx with rfl | hx
      · rfl
      · exact hrs x hx
  exact hfold batch [] (by simp) e he

/-- An owner that had no records has those of its batch. -/
theorem ownedBy_of_register (hr : n.register owner batch = .ok n') (hnone : n.ownedBy owner = []) :
    n'.ownedBy owner = together owner batch := by
  have hothers : ∀ r ∈ n.records, r.owner ≠ owner := fun r hr howner =>
    List.not_mem_nil (hnone ▸ List.mem_filter.2 ⟨hr, by simpa using howner⟩ : r ∈ [])
  unfold register at hr
  split at hr
  · cases hr
  · rename_i haccepted
    have hfree : ∀ e ∈ batch, e.key ∉ n.records.map Export.key := by
      intro e he hmem
      obtain ⟨r, hr, hkey⟩ := List.mem_map.1 hmem
      cases hfind : n.find? e.key with
      | none => exact List.find?_eq_none.1 hfind r hr (by simpa using hkey)
      | some r' =>
          exact hothers r' (List.mem_of_find?_eq_some hfind) (owner_of_accepted haccepted he hfind)
    obtain rfl := Except.ok.inj hr
    have hrecords := foldl_put_append owner hfree []
    rw [List.append_nil] at hrecords
    have hown : (together owner batch).filter (·.owner = owner) = together owner batch :=
      List.filter_eq_self.2 fun e he => by simpa using owner_of_together he
    rw [ownedBy] at hnone ⊢
    dsimp only
    rw [hrecords, List.filter_append, hnone, List.nil_append]
    exact hown

theorem ownedBy_moveLast (n : Namespaces) (owner : String) :
    (n.moveLast owner).ownedBy owner = n.ownedBy owner := by
  simp [ownedBy, moveLast, List.filter_filter]

end owners

/-! ## names -/

/-- Of sound records the one with a key is found. -/
theorem Sound.find?_eq_some_iff (h : Sound n.records) {key : String × String} :
    n.find? key = some e ↔ e ∈ n.records ∧ e.key = key := by
  constructor
  · exact fun hfind => ⟨List.mem_of_find?_eq_some hfind, by simpa using List.find?_some hfind⟩
  · rintro ⟨he, rfl⟩
    cases hfind : n.find? e.key with
    | none => exact absurd (List.find?_eq_none.1 hfind e he) (by simp)
    | some r =>
      have hkey : r.key = e.key := by simpa using List.find?_some hfind
      rw [h.eq_of_key (List.mem_of_find?_eq_some hfind) he hkey]

theorem find?_moveLast (hs : Sound n.records) (owner : String) (key : String × String) :
    (n.moveLast owner).find? key = n.find? key := by
  ext e
  rw [hs.find?_eq_some_iff, (hs.of_perm (n.moveLast_perm owner)).find?_eq_some_iff,
    (n.moveLast_perm owner).mem_iff]

/-- A name with its namespace refers to the record that it did. -/
theorem lookup_moveLast (hs : Sound n.records) (owner space name : String) :
    (n.moveLast owner).lookup space name = n.lookup space name := by
  rw [lookup, find?_moveLast hs]
  rfl

/-- The canonical names of the active records are the same. -/
theorem names_moveLast (n : Namespaces) (owner : String) : (n.moveLast owner).names = n.names := by
  have hperm : ((n.moveLast owner).records.filter n.isActive).map Export.canonical |>.Perm
      ((n.records.filter n.isActive).map Export.canonical) :=
        ((n.moveLast_perm owner).filter _).map _
  have hsorted : ∀ xs : List String, (sortNames xs).Pairwise fun a b => decide (a ≤ b) = true := by
    intro xs
    refine List.pairwise_mergeSort (fun a b c hab hbc => ?_)
      (fun a b => by simpa using String.le_total a b) xs
    exact decide_eq_true (String.le_trans (of_decide_eq_true hab) (of_decide_eq_true hbc))
  refine List.Perm.eq_of_pairwise (fun a b _ _ hab hba => ?_) (hsorted _) (hsorted _)
    ((List.mergeSort_perm ..).trans (hperm.trans (List.mergeSort_perm ..).symm))
  exact String.le_antisymm (of_decide_eq_true hab) (of_decide_eq_true hba)

/-! ## bare names -/

/-- A bare name that refers to a record of the owner for no other reason than that it is the first
one under the name. -/
structure Displaced (n : Namespaces) (owner name : String) (preferred : List String) : Prop where
  /-- No preferred namespace has an active record under the name. -/
  missing : ∀ space ∈ preferred, n.lookup space name = none
  /-- The first active record under the name is the owner's. -/
  first : ∃ e, n.resolveBare name [] = some e ∧ e.owner = owner
  /-- Another owner has an active record under the name. -/
  other : ∃ e ∈ n.records, e.name = name ∧ e.owner ≠ owner ∧ n.isActive e = true

/-- What is found first is found first among fewer, when it stays. -/
theorem find?_filter_of {α : Type} {p q : α → Bool} {l : List α} {a : α} (h : l.find? p = some a)
    (ha : q a = true) :
    (l.filter q).find? p = some a := by
  obtain ⟨hp, as, bs, rfl, has⟩ := List.find?_eq_some_iff_append.1 h
  have hnone : (as.filter q).find? p = none :=
    List.find?_eq_none.2 fun x hx => by simpa using has x (List.mem_of_mem_filter hx)
  rw [List.filter_append, List.find?_append, hnone, List.filter_cons_of_pos ha,
    List.find?_cons_of_pos hp]
  rfl

/-- The first that is wanted in a list whose parts were exchanged: the first one of the part that
is now in front, or else the first one from before. -/
theorem find?_exchanged {α : Type} (p q : α → Bool) (l : List α) :
    (l.filter q ++ l.filter fun a => !q a).find? p = ((l.filter q).find? p).or (l.find? p) := by
  rw [List.find?_append]
  cases hfront : (l.filter q).find? p with
  | some a => rfl
  | none =>
    rw [Option.none_or, Option.none_or]
    cases hall : l.find? p with
    | none =>
        exact List.find?_eq_none.2 fun a ha =>
          List.find?_eq_none.1 hall a (List.mem_of_mem_filter ha)
    | some a =>
      refine find?_filter_of hall ?_
      by_contra hq
      have ha : a ∈ l.filter q :=
        List.mem_filter.2 ⟨List.mem_of_find?_eq_some hall, by simpa using hq⟩
      exact List.find?_eq_none.1 hfront a ha (List.find?_some hall)

theorem resolveBare_nil (n : Namespaces) (name : String) :
    n.resolveBare name [] = n.records.find? fun e => decide (e.name = name) && n.isActive e := by
  rw [resolveBare, List.findSome?_nil, Option.none_or, List.find?_filter]
  simp

theorem resolveBare_eq (n : Namespaces) (name : String) (preferred : List String) :
    n.resolveBare name preferred = (preferred.findSome? (n.lookup · name)).or
      (n.resolveBare name []) := rfl

theorem of_resolveBare_nil (h : n.resolveBare name [] = some e) :
    e ∈ n.records ∧ e.name = name ∧ n.isActive e = true := by
  rw [resolveBare_nil] at h
  exact ⟨List.mem_of_find?_eq_some h, by simpa using List.find?_some h⟩

/-- The records of the other owners go before those of the owner. -/
theorem resolveBare_nil_moveLast (n : Namespaces) (owner name : String) :
    (n.moveLast owner).resolveBare name [] = ((n.unregister owner).resolveBare name []).or
      (n.resolveBare name []) := by
  rw [resolveBare_nil, resolveBare_nil, resolveBare_nil]
  have hback : n.ownedBy owner = n.records.filter fun e => !decide (e.owner ≠ owner) := by
    simp [ownedBy]
  rw [moveLast, hback]
  exact find?_exchanged _ _ n.records

theorem findSome?_lookup_moveLast (hs : Sound n.records) (owner name : String)
    (preferred : List String) :
    preferred.findSome? ((n.moveLast owner).lookup · name) =
      preferred.findSome? (n.lookup · name) := by
  simp only [lookup_moveLast hs]

/-- A bare name that is not displaced refers to the record that it did. -/
theorem resolveBare_moveLast (hs : Sound n.records) {preferred : List String}
    (h : ¬ n.Displaced owner name preferred) :
    (n.moveLast owner).resolveBare name preferred = n.resolveBare name preferred := by
  rw [resolveBare_eq, findSome?_lookup_moveLast hs, n.resolveBare_eq]
  cases hpreferred : preferred.findSome? (n.lookup · name) with
  | some e => rfl
  | none =>
    rw [Option.none_or, Option.none_or, resolveBare_nil_moveLast]
    cases hother : (n.unregister owner).resolveBare name [] with
    | none => rfl
    | some e' =>
      obtain ⟨he', hname, hactive⟩ := of_resolveBare_nil hother
      obtain ⟨he', howner'⟩ := List.mem_filter.1 he'
      cases hfirst : n.resolveBare name [] with
      | none =>
        rw [resolveBare_nil] at hfirst
        exact absurd hactive (by simpa [hname] using List.find?_eq_none.1 hfirst e' he')
      | some e =>
        have howner : e.owner ≠ owner := by
          intro howner
          exact h ⟨List.findSome?_eq_none_iff.1 hpreferred, ⟨e, hfirst, howner⟩,
            ⟨e', he', hname, of_decide_eq_true howner', hactive⟩⟩
        rw [resolveBare_nil] at hother hfirst
        have hsame :=
          find?_filter_of (q := fun e => decide (e.owner ≠ owner)) hfirst (by simpa using howner)
        exact hother.symm.trans hsame

/-- A bare name that is displaced refers to the first record of another owner. -/
theorem resolveBare_of_displaced (hs : Sound n.records) {preferred : List String}
    (h : n.Displaced owner name preferred) :
    ∃ e e', n.resolveBare name preferred = some e ∧ e.owner = owner ∧
      (n.moveLast owner).resolveBare name preferred = some e' ∧
      (n.unregister owner).resolveBare name [] = some e' ∧ e'.owner ≠ owner := by
  obtain ⟨hmissing, ⟨e, hfirst, howner⟩, ⟨r, hr, hname, hother, hactive⟩⟩ := h
  have hpreferred := List.findSome?_eq_none_iff.2 hmissing
  cases hothers : (n.unregister owner).resolveBare name [] with
  | none =>
    rw [resolveBare_nil] at hothers
    have hmem : r ∈ (n.unregister owner).records := List.mem_filter.2 ⟨hr, by simpa using hother⟩
    exact absurd hactive (by simpa [hname] using List.find?_eq_none.1 hothers r hmem)
  | some e' =>
    obtain ⟨he', -, -⟩ := of_resolveBare_nil hothers
    refine ⟨e, e', ?_, howner, ?_, rfl, by simpa using (List.mem_filter.1 he').2⟩
    · rw [resolveBare_eq, hpreferred, Option.none_or, hfirst]
    · rw [resolveBare_eq, findSome?_lookup_moveLast hs, hpreferred, Option.none_or,
        resolveBare_nil_moveLast, hothers]
      rfl

/-! ## all names -/

/-- A name that is displaced has no namespace. -/
theorem Displaced.undotted (hs : Sound n.records) {preferred : List String}
    (h : n.Displaced owner name preferred) :
    Text.cutLast? '.' name = none := by
  obtain ⟨e, hfirst, -⟩ := h.first
  obtain ⟨he, rfl, -⟩ := of_resolveBare_nil hfirst
  have hvalid := hs.valid e he
  simp only [Export.isValid, Bool.and_eq_true] at hvalid
  exact Text.cutLast?_eq_none (by simpa using hvalid.2)

/-- A name refers to the record that it did, unless it is displaced. -/
theorem resolve_moveLast (hs : Sound n.records) {preferred : Option (List String)}
    (h : ∀ spaces, preferred = some spaces → ¬ n.Displaced owner name spaces) :
    (n.moveLast owner).resolve name preferred = n.resolve name preferred := by
  have hunqualified : resolve.unqualified (n.moveLast owner) name preferred =
      resolve.unqualified n name preferred := by
    cases preferred with
    | none => rfl
    | some spaces => exact resolveBare_moveLast hs (h spaces rfl)
  unfold resolve
  rw [hunqualified]
  split
  · rw [lookup_moveLast hs]
  · rfl

/-- A name that is displaced refers to the first record of another owner. -/
theorem resolve_of_displaced (hs : Sound n.records) {preferred : List String}
    (h : n.Displaced owner name preferred) :
    ∃ e e', n.resolve name (some preferred) = some e ∧ e.owner = owner ∧
      (n.moveLast owner).resolve name (some preferred) = some e' ∧
      (n.unregister owner).resolveBare name [] = some e' ∧ e'.owner ≠ owner := by
  have hbare : ∀ n : Namespaces,
      n.resolve name (some preferred) = n.resolveBare name preferred := by
    intro n
    rw [resolve, h.undotted hs]
    rfl
  rw [hbare, hbare]
  exact resolveBare_of_displaced hs h

end EffectChain.Namespaces
