/-!
# EffectChain.Data.Table

Finite tables keyed by names, kept in the order of their keys.

`get?` is the view of a table: `get?_insert` and `get?_erase` say what the
operations do to it.
-/

namespace EffectChain

/-- A finite table from names to values, in increasing order of its keys. -/
structure Table (α : Type) where
  entries : List (String × α)
  sorted : entries.Pairwise fun a b => a.1 < b.1
  deriving DecidableEq

namespace Table

variable {α : Type}

/-- The table without entries. -/
def empty : Table α := ⟨[], .nil⟩

instance : EmptyCollection (Table α) := ⟨empty⟩
instance : Inhabited (Table α) := ⟨empty⟩
instance [Repr α] : Repr (Table α) := ⟨fun t n => reprPrec t.entries n⟩

/-! ## entries in order -/

/-- Puts an entry at its place, over the one with its key. -/
def insertEntry (k : String) (v : α) : List (String × α) → List (String × α)
  | [] => [(k, v)]
  | (k', v') :: rest =>
    if k < k' then (k, v) :: (k', v') :: rest
    else if k = k' then (k, v) :: rest
    else (k', v') :: insertEntry k v rest

theorem mem_insertEntry {k : String} {v : α} {es : List (String × α)} {e : String × α}
    (h : e ∈ insertEntry k v es) : e = (k, v) ∨ e ∈ es := by
  fun_induction insertEntry k v es <;> grind

theorem pairwise_insertEntry {k : String} {v : α} {es : List (String × α)}
    (h : es.Pairwise fun a b => a.1 < b.1) :
    (insertEntry k v es).Pairwise fun a b => a.1 < b.1 := by
  fun_induction insertEntry k v es with
  | case1 => simp
  | case2 k' v' rest hlt =>
    refine List.Pairwise.cons (fun e he => ?_) h
    rcases List.mem_cons.1 he with rfl | he
    · exact hlt
    · exact String.lt_trans hlt ((List.pairwise_cons.1 h).1 e he)
  | case3 v' rest => exact List.Pairwise.cons (List.pairwise_cons.1 h).1 (List.pairwise_cons.1 h).2
  | case4 k' v' rest hlt hne ih =>
    refine List.Pairwise.cons (fun e he => ?_) (ih (List.pairwise_cons.1 h).2)
    rcases mem_insertEntry he with rfl | he
    · grind
    · exact (List.pairwise_cons.1 h).1 e he

/-! ## operations -/

/-- The value of a key. -/
def get? (t : Table α) (k : String) : Option α := t.entries.lookup k

/-- The value of a key, or a default. -/
def getD (t : Table α) (k : String) (d : α) : α := (t.get? k).getD d

def contains (t : Table α) (k : String) : Bool := (t.get? k).isSome

/-- The table with one value set. -/
def insert (t : Table α) (k : String) (v : α) : Table α :=
  ⟨insertEntry k v t.entries, pairwise_insertEntry t.sorted⟩

/-- The table without a key. -/
def erase (t : Table α) (k : String) : Table α :=
  ⟨t.entries.filter (·.1 ≠ k), t.sorted.filter _⟩

/-- The entries that satisfy a predicate. -/
def filter (t : Table α) (p : String → α → Bool) : Table α :=
  ⟨t.entries.filter fun e => p e.1 e.2, t.sorted.filter _⟩

/-- The keys in increasing order. -/
def keys (t : Table α) : List String := t.entries.map (·.1)

def values (t : Table α) : List α := t.entries.map (·.2)

def isEmpty (t : Table α) : Bool := t.entries.isEmpty

def size (t : Table α) : Nat := t.entries.length

/-- The table of a list of entries; the last entry of a key wins. -/
def ofList (es : List (String × α)) : Table α :=
  es.foldl (fun t e => t.insert e.1 e.2) empty

/-- The table with every value replaced. -/
def map {β : Type} (t : Table α) (f : String → α → β) : Table β :=
  ⟨t.entries.map fun e => (e.1, f e.1 e.2), by
    have := t.sorted
    rw [List.pairwise_map]
    exact this⟩

/-- The table over which another is laid. -/
def union (t top : Table α) : Table α :=
  top.entries.foldl (fun t e => t.insert e.1 e.2) t

/-! ## what the operations do to the view -/

@[simp] theorem get?_empty (k : String) : (empty : Table α).get? k = none := rfl

theorem lookup_insertEntry (k k' : String) (v : α) (es : List (String × α)) :
    (insertEntry k v es).lookup k' = if k' = k then some v else es.lookup k' := by
  fun_induction insertEntry k v es <;> grind

/-- A key just set has its new value, every other key the old one. -/
@[simp] theorem get?_insert (t : Table α) (k k' : String) (v : α) :
    (t.insert k v).get? k' = if k' = k then some v else t.get? k' :=
  lookup_insertEntry k k' v t.entries

theorem lookup_filter_ne (k k' : String) (es : List (String × α)) :
    (es.filter fun e => decide (e.1 ≠ k)).lookup k' = if k' = k then none else es.lookup k' := by
  induction es with
  | nil => simp
  | cons e es ih =>
    obtain ⟨a, v⟩ := e
    by_cases h : a = k <;> by_cases h' : k' = a <;> grind

/-- A key just erased has no value, every other key the old one. -/
@[simp] theorem get?_erase (t : Table α) (k k' : String) :
    (t.erase k).get? k' = if k' = k then none else t.get? k' :=
  lookup_filter_ne k k' t.entries

end Table

end EffectChain
