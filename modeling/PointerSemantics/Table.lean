/-!
# Tables keyed by numbers

Register files, block tables, call tables and modules are finite maps from numbers. A `Table` keeps
its entries in strictly increasing key order, so two tables with the same contents are the same
value, and going through a table meets the keys in order.

All operations recurse on the list of entries.

Main statements: `find?_insert`, `find?_erase` say what each operation does to the view `find?`, and
`Table.ext_find?` that the view determines the table.
-/

namespace PointerSemantics

/-- A finite map from numbers, as its entries in strictly increasing key order. -/
structure Table (α : Type) where
  entries : List (Nat × α)
  sorted : entries.Pairwise (·.1 < ·.1)
deriving DecidableEq

namespace Table

variable {α : Type}

/-! ## Lists of entries -/

/-- The value of the first entry with key `k`. -/
def lookupEntry (k : Nat) : List (Nat × α) → Option α
  | [] => none
  | (j, w) :: rest => if k = j then some w else lookupEntry k rest

/-- Puts `v` under `k`, in the place of an entry with that key if there is one. -/
def insertEntry (k : Nat) (v : α) : List (Nat × α) → List (Nat × α)
  | [] => [(k, v)]
  | (j, w) :: rest =>
    if k < j then (k, v) :: (j, w) :: rest
    else if k = j then (k, v) :: rest
    else (j, w) :: insertEntry k v rest

theorem mem_insertEntry {k : Nat} {v : α} {e : Nat × α} {es : List (Nat × α)}
    (h : e ∈ insertEntry k v es) : e = (k, v) ∨ e ∈ es := by
  induction es with
  | nil => simpa [insertEntry] using h
  | cons d rest ih =>
    obtain ⟨j, w⟩ := d
    unfold insertEntry at h
    split at h
    · simpa using h
    · split at h
      · rcases List.mem_cons.1 h with h | h
        · exact .inl h
        · exact .inr (List.mem_cons_of_mem _ h)
      · rcases List.mem_cons.1 h with h | h
        · exact .inr (h ▸ List.mem_cons_self)
        · rcases ih h with h | h
          · exact .inl h
          · exact .inr (List.mem_cons_of_mem _ h)

theorem sorted_insertEntry (k : Nat) (v : α) {es : List (Nat × α)}
    (h : es.Pairwise (·.1 < ·.1)) : (insertEntry k v es).Pairwise (·.1 < ·.1) := by
  induction es with
  | nil => simp [insertEntry]
  | cons d rest ih =>
    obtain ⟨j, w⟩ := d
    have hd := List.pairwise_cons.1 h
    unfold insertEntry
    split
    · next hlt =>
      refine List.pairwise_cons.2 ⟨fun e he => ?_, h⟩
      rcases List.mem_cons.1 he with he | he
      · exact he ▸ hlt
      · exact Nat.lt_trans hlt (hd.1 e he)
    · split
      · next heq => exact List.pairwise_cons.2 ⟨fun e he => heq ▸ hd.1 e he, hd.2⟩
      · next hlt hne =>
        refine List.pairwise_cons.2 ⟨fun e he => ?_, ih hd.2⟩
        rcases mem_insertEntry he with he | he
        · subst he; simp only; omega
        · exact hd.1 e he

/-! ## Operations -/

def empty : Table α := ⟨[], .nil⟩

instance : Inhabited (Table α) := ⟨empty⟩

/-- The value under a key. -/
def find? (t : Table α) (k : Nat) : Option α := lookupEntry k t.entries

def insert (t : Table α) (k : Nat) (v : α) : Table α :=
  ⟨insertEntry k v t.entries, sorted_insertEntry k v t.sorted⟩

def erase (t : Table α) (k : Nat) : Table α :=
  ⟨t.entries.filter (·.1 != k), t.sorted.filter _⟩

/-- Further entries, each in the place of an earlier one with its key. -/
def insertMany (t : Table α) (es : List (Nat × α)) : Table α :=
  es.foldl (fun t e => t.insert e.1 e.2) t

/-- The table of a list of entries; of two entries with one key the later stays. -/
def ofList (es : List (Nat × α)) : Table α := empty.insertMany es

def keys (t : Table α) : List Nat := t.entries.map (·.1)

def values (t : Table α) : List α := t.entries.map (·.2)

def size (t : Table α) : Nat := t.entries.length

/-! ## The view -/

@[simp] theorem find?_empty (k : Nat) : (empty : Table α).find? k = none := rfl

theorem lookup_insertEntry (k : Nat) (v : α) (i : Nat) (es : List (Nat × α)) :
    lookupEntry i (insertEntry k v es) = if i = k then some v else lookupEntry i es := by
  induction es with
  | nil => rfl
  | cons d rest ih =>
    obtain ⟨j, w⟩ := d
    unfold insertEntry
    split
    · rfl
    · split
      · next heq =>
        subst heq
        simp only [lookupEntry]
        split <;> rfl
      · next hne =>
        simp only [lookupEntry, ih]
        grind

@[simp] theorem find?_insert (t : Table α) (k : Nat) (v : α) (i : Nat) :
    (t.insert k v).find? i = if i = k then some v else t.find? i :=
  lookup_insertEntry k v i t.entries

theorem lookup_filter_key (k i : Nat) (es : List (Nat × α)) :
    lookupEntry i (es.filter (·.1 != k)) = if i = k then none else lookupEntry i es := by
  induction es with
  | nil => simp [lookupEntry]
  | cons d rest ih =>
    obtain ⟨j, w⟩ := d
    by_cases hd : j = k
    · subst hd
      simp only [List.filter_cons, bne_self_eq_false, Bool.false_eq_true, if_false, ih, lookupEntry]
      split <;> rfl
    · have : (j != k) = true := by simpa using hd
      simp only [List.filter_cons, this, if_true, ih, lookupEntry]
      grind

@[simp] theorem find?_erase (t : Table α) (k i : Nat) :
    (t.erase k).find? i = if i = k then none else t.find? i :=
  lookup_filter_key k i t.entries

/-- In a sorted list the entry with a key is the one found under it. -/
theorem lookup_eq_some_iff {es : List (Nat × α)} (h : es.Pairwise (·.1 < ·.1)) (k : Nat) (v : α) :
    lookupEntry k es = some v ↔ (k, v) ∈ es := by
  induction es with
  | nil => simp [lookupEntry]
  | cons d rest ih =>
    obtain ⟨j, w⟩ := d
    have hd := List.pairwise_cons.1 h
    rw [lookupEntry, List.mem_cons]
    split
    · next hk =>
      subst hk
      have : (k, v) ∉ rest := fun hm => Nat.lt_irrefl _ (hd.1 (k, v) hm)
      simp [this, eq_comm]
    · next hk => simp [hk, ih hd.2]

theorem find?_eq_some_iff (t : Table α) (k : Nat) (v : α) :
    t.find? k = some v ↔ (k, v) ∈ t.entries :=
  lookup_eq_some_iff t.sorted k v

/-- Two strictly sorted lists with the same entries are the same list. -/
theorem entries_ext {es fs : List (Nat × α)} (he : es.Pairwise (·.1 < ·.1))
    (hf : fs.Pairwise (·.1 < ·.1)) (h : ∀ e, e ∈ es ↔ e ∈ fs) : es = fs := by
  induction es generalizing fs with
  | nil =>
    cases fs with
    | nil => rfl
    | cons f fs => exact absurd ((h f).2 List.mem_cons_self) List.not_mem_nil
  | cons e es ih =>
    cases fs with
    | nil => exact absurd ((h e).1 List.mem_cons_self) List.not_mem_nil
    | cons f fs =>
      have he' := List.pairwise_cons.1 he
      have hf' := List.pairwise_cons.1 hf
      have hef : e = f := by
        rcases List.mem_cons.1 ((h e).1 List.mem_cons_self) with h1 | h1
        · exact h1
        rcases List.mem_cons.1 ((h f).2 List.mem_cons_self) with h2 | h2
        · exact h2.symm
        exact absurd (Nat.lt_trans (hf'.1 _ h1) (he'.1 _ h2)) (Nat.lt_irrefl _)
      subst hef
      refine congrArg (e :: ·) (ih he'.2 hf'.2 fun x => ⟨fun hx => ?_, fun hx => ?_⟩)
      · rcases List.mem_cons.1 ((h x).1 (List.mem_cons_of_mem _ hx)) with h1 | h1
        · exact absurd (h1 ▸ he'.1 _ hx) (Nat.lt_irrefl _)
        · exact h1
      · rcases List.mem_cons.1 ((h x).2 (List.mem_cons_of_mem _ hx)) with h1 | h1
        · exact absurd (h1 ▸ hf'.1 _ hx) (Nat.lt_irrefl _)
        · exact h1

/-- The view determines the table. -/
theorem ext_find? {s t : Table α} (h : ∀ k, s.find? k = t.find? k) : s = t := by
  have : s.entries = t.entries :=
    entries_ext s.sorted t.sorted fun ⟨k, v⟩ => by
      rw [← find?_eq_some_iff, ← find?_eq_some_iff, h]
  cases s; cases t; simp_all

theorem mem_values_iff (t : Table α) (v : α) : v ∈ t.values ↔ ∃ k, t.find? k = some v := by
  simp [values, find?_eq_some_iff]

theorem mem_keys_iff (t : Table α) (k : Nat) : k ∈ t.keys ↔ ∃ v, t.find? k = some v := by
  simp [keys, find?_eq_some_iff]

end Table

end PointerSemantics
