import Mathlib.Data.List.Nodup
import EffectChain.Data.Table

/-!
# EffectChain.Proofs.Data.Table

The entries of a table against its view: an entry is a key with its value
(`mem_entries_iff`), and tables with the same view are equal (`ext_get?`).
-/

namespace EffectChain

namespace Table

variable {α β : Type}

/-! ## entries and the view -/

@[simp] theorem get?_emptyc (k : String) : (∅ : Table α).get? k = none := rfl

@[simp] theorem entries_emptyc : (∅ : Table α).entries = [] := rfl

@[simp] theorem contains_emptyc (k : String) : (∅ : Table α).contains k = false := rfl

theorem contains_iff {t : Table α} {k : String} : t.contains k = true ↔ ∃ v, t.get? k = some v := by
  simp [contains, Option.isSome_iff_exists]

@[simp] theorem contains_insert (t : Table α) (k k' : String) (v : α) :
    (t.insert k v).contains k' = (decide (k' = k) || t.contains k') := by
  by_cases h : k' = k <;> simp [contains, h]

theorem getD_insert (t : Table α) (k k' : String) (v d : α) :
    (t.insert k v).getD k' d = if k' = k then v else t.getD k' d := by
  by_cases h : k' = k <;> simp [getD, h]

theorem getD_erase (t : Table α) (k k' : String) (d : α) :
    (t.erase k).getD k' d = if k' = k then d else t.getD k' d := by
  by_cases h : k' = k <;> simp [getD, h]

theorem getD_of_get? {t : Table α} {k : String} {v : α} (d : α) (h : t.get? k = some v) :
    t.getD k d = v := by
  simp [getD, h]

theorem lookup_cons_eq (e : String × α) (es : List (String × α)) (k : String) :
    (e :: es).lookup k = if k = e.1 then some e.2 else es.lookup k := by
  obtain ⟨a, w⟩ := e
  by_cases h : k = a <;> grind

/-- In a list in order, an entry is what its key is looked up to. -/
theorem lookup_eq_some_iff_mem {es : List (String × α)} (h : es.Pairwise fun a b => a.1 < b.1)
    (k : String) (v : α) : es.lookup k = some v ↔ (k, v) ∈ es := by
  induction es with
  | nil => simp
  | cons e es ih =>
      obtain ⟨a, w⟩ := e
      obtain ⟨hlt, hes⟩ := List.pairwise_cons.1 h
      by_cases hk : k = a
      · subst hk
        have hnot : (k, v) ∉ es := fun hm => String.lt_irrefl k (hlt (k, v) hm)
        simp [hnot, eq_comm]
      · rw [lookup_cons_eq, if_neg hk, ih hes]
        simp [hk]

/-- An entry of a table is a key with its value. -/
theorem mem_entries_iff {t : Table α} {k : String} {v : α} :
    (k, v) ∈ t.entries ↔ t.get? k = some v :=
  (lookup_eq_some_iff_mem t.sorted k v).symm

theorem mem_values_iff {t : Table α} {v : α} : v ∈ t.values ↔ ∃ k, t.get? k = some v := by
  simp [values, ← mem_entries_iff]

theorem mem_keys_iff {t : Table α} {k : String} : k ∈ t.keys ↔ t.contains k = true := by
  simp [keys, contains_iff, ← mem_entries_iff]

theorem nodup_keys (t : Table α) : t.keys.Nodup := by
  rw [keys, List.Nodup, List.pairwise_map]
  exact t.sorted.imp fun h => String.ne_of_lt h

/-- The value of a key after every value was replaced. -/
@[simp] theorem get?_map (t : Table α) (f : String → α → β) (k : String) :
    (t.map f).get? k = (t.get? k).map (f k) := by
  obtain ⟨es, hes⟩ := t
  simp only [get?, map]
  clear hes
  induction es with
  | nil => rfl
  | cons e es ih =>
      rw [List.map_cons, lookup_cons_eq, lookup_cons_eq, ih]
      by_cases h : k = e.1 <;> simp [h]

@[simp] theorem contains_map (t : Table α) (f : String → α → β) (k : String) :
    (t.map f).contains k = t.contains k := by
  simp [contains]

/-- Looking up among filtered entries is filtering what is looked up. -/
theorem lookup_filter {es : List (String × α)} (hs : es.Pairwise fun a b => a.1 < b.1)
    (p : String → α → Bool) (k : String) :
    (es.filter fun e => p e.1 e.2).lookup k = (es.lookup k).filter (p k) := by
  induction es with
  | nil => rfl
  | cons e es ih =>
      obtain ⟨hlt, hes⟩ := List.pairwise_cons.1 hs
      have hnone : k = e.1 → es.lookup k = none := by
        rintro rfl
        cases h : es.lookup e.1 with
        | none => rfl
        | some v =>
            exact absurd (hlt _ ((lookup_eq_some_iff_mem hes e.1 v).1 h)) (String.lt_irrefl _)
      rw [List.filter_cons, lookup_cons_eq]
      by_cases hk : k = e.1
      · cases hp : p e.1 e.2 with
        | true => simp [lookup_cons_eq, hk, hp, Option.filter_some]
        | false =>
            rw [if_neg (by simp), ih hes, hnone hk]
            simp [hk, hp, Option.filter_some]
      · cases hp : p e.1 e.2 with
        | true => simp [lookup_cons_eq, hk, ih hes]
        | false => simp [hk, ih hes]

/-- The value of a key among the entries that satisfy a predicate. -/
theorem get?_filter (t : Table α) (p : String → α → Bool) (k : String) :
    (t.filter p).get? k = (t.get? k).filter (p k) :=
  lookup_filter t.sorted p k

/-- Lists in order with the same entries are equal. -/
theorem eq_of_mem_iff {es fs : List (String × α)} (he : es.Pairwise fun a b => a.1 < b.1)
    (hf : fs.Pairwise fun a b => a.1 < b.1) (h : ∀ e, e ∈ es ↔ e ∈ fs) : es = fs := by
  have hnodup : ∀ {l : List (String × α)}, l.Pairwise (fun a b => a.1 < b.1) → l.Nodup := by
    intro l hl
    refine hl.imp fun {a b} hab => ?_
    rintro rfl
    exact String.lt_irrefl _ hab
  have hperm : es.Perm fs := (List.perm_ext_iff_of_nodup (hnodup he) (hnodup hf)).2 h
  refine List.Perm.eq_of_pairwise (fun a b _ _ hab hba => ?_) he hf hperm
  exact absurd (String.lt_trans hab hba) (String.lt_irrefl _)

/-- Tables with the same view are equal. -/
theorem ext_get? {t u : Table α} (h : ∀ k, t.get? k = u.get? k) : t = u := by
  have hentries : t.entries = u.entries := by
    refine eq_of_mem_iff t.sorted u.sorted fun e => ?_
    obtain ⟨k, v⟩ := e
    rw [mem_entries_iff, mem_entries_iff, h k]
  cases t
  cases u
  simp_all

/-- Inserting and mapping may be done in either order. -/
theorem map_insert (t : Table α) (f : String → α → β) (k : String) (v : α) :
    (t.insert k v).map f = (t.map f).insert k (f k v) := by
  refine ext_get? fun a => ?_
  rw [get?_map, get?_insert, get?_insert, get?_map]
  by_cases ha : a = k <;> simp [ha]

theorem map_erase (t : Table α) (f : String → α → β) (k : String) :
    (t.erase k).map f = (t.map f).erase k := by
  refine ext_get? fun a => ?_
  rw [get?_map, get?_erase, get?_erase, get?_map]
  by_cases ha : a = k <;> simp [ha]

/-- Two values that are set can change places, unless they differ and have one key. -/
theorem insert_comm (t : Table α) {k k' : String} {v v' : α} (h : k = k' → v = v') :
    (t.insert k v).insert k' v' = (t.insert k' v').insert k v := by
  refine ext_get? fun i => ?_
  simp only [get?_insert]
  grind

/-- A key that is taken out and put back has its new value. -/
theorem insert_erase (t : Table α) (k : String) (v : α) :
    (t.erase k).insert k v = t.insert k v := by
  refine ext_get? fun a => ?_
  rw [get?_insert, get?_insert, get?_erase]
  by_cases ha : a = k <;> simp [ha]

/-! ## tables that are built entry by entry -/

/-- The view after a run of insertions: the last entry of a key wins. -/
theorem get?_foldl_insert (es : List (String × α)) (t : Table α) (k : String) :
    (es.foldl (fun t e => t.insert e.1 e.2) t).get? k = (es.reverse.lookup k).or (t.get? k) := by
  induction es generalizing t with
  | nil => simp
  | cons e es ih =>
      rw [List.foldl_cons, ih, List.reverse_cons, List.lookup_append, Option.or_assoc]
      by_cases h : k = e.1 <;> simp [lookup_cons_eq, h]

/-- The view after a run of insertions in the order of the keys. -/
theorem get?_foldl_insert_sorted {es : List (String × α)} (hs : es.Pairwise fun a b => a.1 < b.1)
    (t : Table α) (k : String) :
    (es.foldl (fun t e => t.insert e.1 e.2) t).get? k = (es.lookup k).or (t.get? k) := by
  induction es generalizing t with
  | nil => simp
  | cons e es ih =>
      obtain ⟨hlt, hes⟩ := List.pairwise_cons.1 hs
      rw [List.foldl_cons, ih hes, get?_insert, lookup_cons_eq]
      by_cases hk : k = e.1
      · have hnone : es.lookup k = none := by
          refine Option.eq_none_iff_forall_ne_some.2 fun v hv => ?_
          exact String.lt_irrefl e.1 (hk ▸ hlt (k, v) ((lookup_eq_some_iff_mem hes k v).1 hv))
        simp [hk, hk ▸ hnone]
      · simp [hk]

/-- Inserting entries adds their keys. -/
theorem contains_foldl_insert (es : List (String × α)) (t : Table α) (k : String) :
    (es.foldl (fun t e => t.insert e.1 e.2) t).contains k = true ↔ t.contains k = true ∨
    k ∈ es.map (·.1) := by
  induction es generalizing t with
  | nil => simp
  | cons e es ih =>
      rw [List.foldl_cons, ih, contains_insert, List.map_cons, List.mem_cons]
      grind

/-- A run of insertions and a change of all values can be made in either order. -/
theorem map_foldl_insert (f : String → α → β) (es : List (String × α)) (t : Table α) :
    (es.foldl (fun t e => t.insert e.1 e.2) t).map f =
      es.foldl (fun t e => t.insert e.1 (f e.1 e.2)) (t.map f) := by
  induction es generalizing t with
  | nil => rfl
  | cons e es ih => rw [List.foldl_cons, ih, map_insert, List.foldl_cons]

/-- Erasing keys and mapping may be done in either order. -/
theorem map_foldl_erase (f : String → α → β) (ks : List String) (t : Table α) :
    (ks.foldl Table.erase t).map f = ks.foldl Table.erase (t.map f) := by
  induction ks generalizing t with
  | nil => rfl
  | cons k ks ih => rw [List.foldl_cons, ih, map_erase, List.foldl_cons]

/-- Erasing keys leaves the other ones. -/
theorem contains_foldl_erase (ks : List String) (t : Table α) (k : String) :
    (ks.foldl Table.erase t).contains k = true ↔ t.contains k = true ∧ k ∉ ks := by
  induction ks generalizing t with
  | nil => simp
  | cons a ks ih =>
      rw [List.foldl_cons, ih]
      by_cases ha : k = a <;> simp [contains, ha]

/-- A key that is erased has no value. -/
theorem get?_foldl_erase (ks : List String) (t : Table α) (k : String) :
    (ks.foldl Table.erase t).get? k = if k ∈ ks then none else t.get? k := by
  induction ks generalizing t with
  | nil => simp
  | cons a ks ih =>
      rw [List.foldl_cons, ih, get?_erase]
      by_cases ha : k = a <;> simp [ha]

theorem get?_ofList (es : List (String × α)) (k : String) :
    (ofList es).get? k = es.reverse.lookup k := by
  rw [ofList, get?_foldl_insert]
  simp

/-- A table made of entries has only their values. -/
theorem mem_of_get?_ofList {es : List (String × α)} {k : String} {v : α}
    (h : (ofList es).get? k = some v) : (k, v) ∈ es := by
  rw [get?_ofList, List.lookup_eq_some_iff] at h
  obtain ⟨as, bs, heq, -⟩ := h
  rw [← List.mem_reverse, heq]
  simp

/-- A table made of entries contains their keys. -/
theorem contains_ofList (es : List (String × α)) (k : String) :
    (ofList es).contains k = true ↔ ∃ v, (k, v) ∈ es := by
  rw [contains, get?_ofList, List.lookup_isSome_iff]
  constructor
  · rintro ⟨e, he, hk⟩
    rw [beq_iff_eq] at hk
    exact ⟨e.2, by rw [hk]; exact List.mem_reverse.1 he⟩
  · rintro ⟨v, hv⟩
    exact ⟨(k, v), List.mem_reverse.2 hv, beq_self_eq_true k⟩

end Table

end EffectChain
