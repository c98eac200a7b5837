import PointerSemantics.Proofs.Memory.Erasure
import PointerSemantics.Proofs.Memory.Stability

/-!
# Changes of memory that commute

A write and a release of another block, and a write and an allocation, may be done in either order. So
may the releases of two blocks, up to the times at which the blocks died.
-/

namespace PointerSemantics

theorem Table.insert_comm {α : Type} (t : Table α) {i j : Nat} (h : i ≠ j) (v w : α) :
    (t.insert i v).insert j w = (t.insert j w).insert i v := by
  refine ext_find? fun k => ?_
  simp only [find?_insert]
  by_cases hi : k = i
  · rw [if_pos hi, if_neg (fun hj => h (hi.symm.trans hj)), if_pos hi]
  · rw [if_neg hi, if_neg hi]

namespace Memory

variable {m m₁ m₂ n₁ n₂ : Memory} {i j : BlockId} {offset : Nat} {bytes : List Byte}

/-! ## Writes and releases -/

theorem write_free_comm (hne : i ≠ j) (hw : m.write i offset bytes = .ok m₁) (hf : m₁.free j = .ok m₂)
    (hf' : m.free j = .ok n₁) (hw' : n₁.write i offset bytes = .ok n₂) : n₂ = m₂ := by
  obtain ⟨b, hb, -, -, rfl⟩ := write_eq_ok_iff.1 hw
  obtain ⟨c, hc, -, rfl⟩ := free_eq_ok_iff.1 hf
  obtain ⟨c', hc', -, rfl⟩ := free_eq_ok_iff.1 hf'
  obtain ⟨b', hb', -, -, rfl⟩ := write_eq_ok_iff.1 hw'
  -- neither change touches the block of the other
  have hcc : c = c' := by
    have hget : Table.find? (m.blocks.insert i _) j = some c := hc
    rw [Table.find?_insert, if_neg hne.symm] at hget
    exact Option.some.inj (hget.symm.trans hc')
  have hbb : b = b' := by
    have hget : Table.find? (m.blocks.insert j _) i = some b' := hb'
    rw [Table.find?_insert, if_neg hne] at hget
    exact Option.some.inj (hb.symm.trans hget)
  subst hcc hbb
  dsimp only
  rw [Table.insert_comm m.blocks hne]

theorem free_free_comm (hne : i ≠ j) (hi : m.free i = .ok m₁) (hj : m₁.free j = .ok m₂)
    (hj' : m.free j = .ok n₁) (hi' : n₁.free i = .ok n₂) :
    n₂.erase .times = m₂.erase .times := by
  obtain ⟨b, hb, -, rfl⟩ := free_eq_ok_iff.1 hi
  obtain ⟨c, hc, -, rfl⟩ := free_eq_ok_iff.1 hj
  obtain ⟨c', hc', -, rfl⟩ := free_eq_ok_iff.1 hj'
  obtain ⟨b', hb', -, rfl⟩ := free_eq_ok_iff.1 hi'
  have hcc : c = c' := by
    have hget : Table.find? (m.blocks.insert i _) j = some c := hc
    rw [Table.find?_insert, if_neg hne.symm] at hget
    exact Option.some.inj (hget.symm.trans hc')
  have hbb : b = b' := by
    have hget : Table.find? (m.blocks.insert j _) i = some b' := hb'
    rw [Table.find?_insert, if_neg hne] at hget
    exact Option.some.inj (hb.symm.trans hget)
  subst hcc hbb
  simp only [erase, Table.map_insert]
  rw [Table.insert_comm _ hne]
  rfl

/-! ## Writes and allocations -/

/-- What is reserved depends on the twin addresses and the sizes of the live blocks only. -/
theorem reservedRanges_congr {m m' : Memory}
    (h : ∀ id, (m'.get? id).map (fun b => if b.isAlive then b.reservedRanges else []) =
      (m.get? id).map fun b => if b.isAlive then b.reservedRanges else []) :
    m'.reservedRanges = m.reservedRanges := by
  have hflat : ∀ m : Memory, m.reservedRanges =
      (m.blocks.map fun b => if b.isAlive then b.reservedRanges else []).values.flatten := by
    intro m
    rw [Table.values_map]
    unfold reservedRanges liveBlocks
    induction m.blocks.values with
    | nil => rfl
    | cons b rest ih =>
      rw [List.map_cons, List.flatten_cons, ← ih, List.filter_cons]
      split
      · rfl
      · rfl
  rw [hflat, hflat]
  congr 2
  refine Table.ext_find? fun id => ?_
  rw [Table.find?_map, Table.find?_map]
  exact h id

theorem reservedRanges_write (h : m.write i offset bytes = .ok m₁) :
    m₁.reservedRanges = m.reservedRanges := by
  refine reservedRanges_congr fun id => ?_
  obtain ⟨b, hb, -, hget⟩ := get?_write h id
  rw [hget]
  by_cases hid : id = i
  · rw [if_pos hid, hid, hb]
    rfl
  · rw [if_neg hid]

/-- An allocation after a write is the allocation without it, with the same write after it. -/
theorem Wf.allocate_write (hm : m.Wf) (hw : m.write i offset bytes = .ok m₁) (req : AllocRequest) :
    (∃ e, m.allocate req = .error e ∧ m₁.allocate req = .error e) ∨
      ∃ id m₂ n₂, m.allocate req = .ok (id, m₂) ∧ m₁.allocate req = .ok (id, n₂) ∧
        m₂.write i offset bytes = .ok n₂ := by
  have hplaces : m₁.places req = m.places req := by
    unfold places
    rw [reservedRanges_write hw, viable_congr (persists_write hw).config_eq]
  obtain ⟨b, hb, hlive, hle, rfl⟩ := write_eq_ok_iff.1 hw
  have hne : i ≠ m.freshId := by
    rintro rfl
    rw [hm.get?_freshId] at hb
    simp at hb
  unfold places at hplaces
  unfold Memory.allocate
  rw [hplaces]
  split
  · exact .inl ⟨_, rfl, rfl⟩
  · split
    · exact .inl ⟨_, rfl, rfl⟩
    · split
      · exact .inl ⟨_, rfl, rfl⟩
      · dsimp only
        split
        · exact .inl ⟨_, rfl, rfl⟩
        · exact .inl ⟨_, rfl, rfl⟩
        · refine .inr ⟨_, _, _, rfl, rfl, write_eq_ok_iff.2 ⟨b, ?_, hlive, hle, ?_⟩⟩
          · show Table.find? (m.blocks.insert m.freshId _) i = _
            rw [Table.find?_insert, if_neg hne]
            exact hb
          · dsimp only
            rw [Table.insert_comm m.blocks hne]

/-! ## Through pointers -/

variable {p q : Pointer} {ty : Ty} {v : Value}

/-- A store that succeeds after a release does so before it, and nothing else comes of it. -/
theorem Usable.storeValue_before_free (hm : m.Usable) (hf : m.freePointer p = .ok n₁)
    (hs : n₁.storeValue ty v q = .ok n₂) :
    ∃ m₁, m.storeValue ty v q = .ok m₁ ∧ m₁.freePointer p = .ok n₂ := by
  obtain ⟨j, rfl, hj, hfj⟩ := liveOnHeap_of_freePointer hf
  have hn₁ : n₁.Usable := ⟨hm.wf.free hfj, (persists_free hfj).config_eq ▸ hm.valid⟩
  obtain ⟨i, offset, hr, hw'⟩ := storeValue_eq_ok_iff.1 hs
  -- the store goes to a block that is alive after the release, hence to another one
  have hne : i ≠ j := by
    rintro rfl
    obtain ⟨b, hb, hlive, -⟩ := hn₁.resolve_eq_ok_iff.1 hr
    obtain ⟨c, -, -, hget⟩ := get?_free hfj i
    rw [hget, if_pos rfl] at hb
    obtain rfl := Option.some.inj hb
    simp [Block.isAlive] at hlive
  have hresolve := (liveIn_of_free hfj).resolve hn₁ hm hr
  have hstore : ∃ m₁, m.storeValue ty v q = .ok m₁ := hm.exists_storeValue_iff.2 ⟨i, offset, hresolve⟩
  obtain ⟨m₁, hm₁⟩ := hstore
  obtain ⟨i', offset', hr', hw⟩ := storeValue_eq_ok_iff.1 hm₁
  obtain ⟨rfl, rfl⟩ := Prod.mk.inj (Except.ok.inj (hresolve.symm.trans hr'))
  obtain ⟨m₂, hm₂, hf₂⟩ := ((liveOnHeap_write hw).2 hj).exists_freePointer
  rw [write_free_comm hne hw hf₂ hfj hw']
  exact ⟨m₁, hm₁, hm₂⟩

/-- A release that succeeds after another one does so before it. -/
theorem freePointer_before_free (hf : m.freePointer p = .ok n₁) (hs : n₁.freePointer q = .ok n₂) :
    ∃ m₁ m₂, m.freePointer q = .ok m₁ ∧ m₁.freePointer p = .ok m₂ ∧
      n₂.erase .times = m₂.erase .times := by
  obtain ⟨j, rfl, hj, hfj⟩ := liveOnHeap_of_freePointer hf
  obtain ⟨i, rfl, hi, hfi⟩ := liveOnHeap_of_freePointer hs
  obtain ⟨hi, hne⟩ := (liveOnHeap_free hfj).1 hi
  obtain ⟨m₁, hm₁, hfi₁⟩ := hi.exists_freePointer
  obtain ⟨m₂, hm₂, hfj₂⟩ := ((liveOnHeap_free hfi₁).2 ⟨hj, hne.symm⟩).exists_freePointer
  exact ⟨m₁, m₂, hm₁, hm₂, free_free_comm hne hfi₁ hfj₂ hfj hfi⟩

/-- A placement after a store is the placement without it, with the same store after it. -/
theorem Usable.place_storeValue (hm : m.Usable) (hs : m.storeValue ty v p = .ok n₁) (kind : BlockKind)
    (size : Option Nat) (candidates : List Nat) (pick : Nat) :
    (∃ e, m.place kind size candidates pick = .error e ∧
        n₁.place kind size candidates pick = .error e) ∨
      ∃ id m₁ n₂, m.place kind size candidates pick = .ok (id, m₁) ∧
        n₁.place kind size candidates pick = .ok (id, n₂) ∧ m₁.storeValue ty v p = .ok n₂ := by
  obtain ⟨i, offset, hr, hw⟩ := storeValue_eq_ok_iff.1 hs
  unfold place
  split
  · exact .inl ⟨_, rfl, rfl⟩
  · exact .inl ⟨_, rfl, rfl⟩
  · split
    · exact .inl ⟨_, rfl, rfl⟩
    · rw [(persists_write hw).config_eq]
      rcases hm.wf.allocate_write hw _ with ⟨e, he, he'⟩ | ⟨id, m₁, n₂, ha, ha', hw'⟩
      · rw [he, he']
        exact .inl ⟨_, rfl, rfl⟩
      · rw [ha, ha']
        have hm₁ : m₁.Usable :=
          ⟨hm.wf.allocate ha, (hm.wf.persists_allocate ha).config_eq ▸ hm.valid⟩
        refine .inr ⟨id, m₁, n₂, rfl, rfl, storeValue_eq_ok_iff.2 ⟨i, offset, ?_, hw'⟩⟩
        exact (hm.wf.liveIn_allocate ha).resolve hm hm₁ hr

end Memory

end PointerSemantics
