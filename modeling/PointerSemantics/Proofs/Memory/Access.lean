import Mathlib.Tactic.Push
import PointerSemantics.Proofs.Exec
import PointerSemantics.Proofs.Values

/-!
# Where an access goes

The ranges of live blocks are apart and none of them saturates, so an address lies in one live block at
most. That makes an access a matter of one block: `resolve_eq_ok_iff` says that it goes to the live block
that the pointer reaches, and `Block.Reaches` only speaks of the number, the place and the size of that
block. What becomes of other blocks does not change it.
-/

namespace PointerSemantics

/-! ## Addresses of live blocks -/

/-- All `len` addresses from `addr` on, at least that one, belong to the block. -/
def Block.Covers (b : Block) (addr len : Nat) : Prop :=
  b.base ≤ addr ∧ addr + max len 1 ≤ b.base + b.size

/-- The invariant holds and the address space is usable. -/
structure Memory.Usable (m : Memory) : Prop where
  wf : m.Wf
  valid : m.config.validate = .ok ()

namespace Memory

variable {m : Memory} {id : BlockId} {b : Block} {p : Pointer} {addr len offset : Nat}

theorem Sound.usable (h : m.Sound) : m.Usable := ⟨h.wf, h.valid⟩

namespace Usable

/-- A reserved range is not empty and lies behind address zero inside the address space. -/
theorem bounds_of_mem_reservedRanges (h : m.Usable) {r : AddrRange} (hr : r ∈ m.reservedRanges) :
    0 < r.len ∧ 0 < r.start ∧ r.start + r.len ≤ m.config.memsz := by
  obtain ⟨id, b, hb, halive, a, ha, rfl⟩ := mem_reservedRanges_iff.1 hr
  have hblock := h.wf.block id b hb
  obtain ⟨hpos, -, hstop⟩ := fits_iff.1 (hblock.fits halive a ha)
  exact ⟨Nat.pos_of_ne_zero hblock.size_ne_zero, hpos, (AddrRange.stop_le_memsz_iff h.valid).1 hstop⟩

theorem range_mem_reservedRanges (h : m.Usable) (hb : m.get? id = some b) (halive : b.isAlive = true) :
    b.range ∈ m.reservedRanges :=
  mem_reservedRanges_iff.2 ⟨id, b, hb, halive, b.base, (h.wf.block id b hb).base_mem, rfl⟩

theorem bounds (h : m.Usable) (hb : m.get? id = some b) (halive : b.isAlive = true) :
    0 < b.base ∧ b.base + b.size ≤ m.config.memsz :=
  (h.bounds_of_mem_reservedRanges (h.range_mem_reservedRanges hb halive)).2

theorem lt_max (h : m.Usable) : m.config.memsz < Word.max :=
  Nat.lt_of_le_of_lt (MemConfig.memsz_le h.valid) maxMemsz_lt_max

/-- No range of a live block saturates. -/
theorem contains_iff (h : m.Usable) (hb : m.get? id = some b) (halive : b.isAlive = true) :
    b.range.contains addr (max len 1) = true ↔ b.Covers addr len := by
  have hbounds := h.bounds hb halive
  have hmax := h.lt_max
  have hstop : b.range.stop = b.base + b.size := AddrRange.stop_eq (by
    show b.base + b.size ≤ Word.max
    omega)
  rw [AddrRange.contains_iff, hstop]
  unfold Block.Covers Word.saturatingAdd
  show b.base ≤ addr ∧ _ ↔ _
  omega

/-- Reserved ranges that are apart lie one behind the other. -/
theorem apart_iff (h : m.Usable) {r s : AddrRange} (hr : r ∈ m.reservedRanges) (hs : s ∈ m.reservedRanges) :
    r.Apart s ↔ r.start + r.len ≤ s.start ∨ s.start + s.len ≤ r.start := by
  obtain ⟨hrlen, -, hrstop⟩ := h.bounds_of_mem_reservedRanges hr
  obtain ⟨hslen, -, hsstop⟩ := h.bounds_of_mem_reservedRanges hs
  have hmax := h.lt_max
  rw [AddrRange.apart_iff (by omega) (by omega), AddrRange.stop_eq (by omega),
    AddrRange.stop_eq (by omega), or_comm]

/-- An address lies in one live block at most. -/
theorem eq_of_covers (h : m.Usable) {j : BlockId} {c : Block} (hb : m.get? id = some b)
    (hbl : b.isAlive = true) (hc : m.get? j = some c) (hcl : c.isAlive = true) {k : Nat}
    (hbc : b.Covers addr len) (hcc : c.Covers addr k) : id = j := by
  by_contra hne
  have hbwf := h.wf.block id b hb
  have hcwf := h.wf.block j c hc
  have hapart := h.wf.apart id j b c hb hbl hc hcl b.base hbwf.base_mem c.base hcwf.base_mem
    (.inl hne)
  have hbehind := (h.apart_iff (h.range_mem_reservedRanges hb hbl) (h.range_mem_reservedRanges hc hcl)).1
    hapart
  obtain ⟨hb1, hb2⟩ := hbc
  obtain ⟨hc1, hc2⟩ := hcc
  simp only [Block.range] at hbehind
  omega

/-- The block found at an address is the live block there. -/
theorem liveBlockContaining?_eq_some_iff (h : m.Usable) :
    m.liveBlockContaining? addr len = some id ↔
      ∃ b, m.get? id = some b ∧ b.isAlive = true ∧ b.Covers addr len := by
  constructor
  · intro hid
    obtain ⟨c, hc, rfl⟩ := Option.map_eq_some_iff.1 hid
    obtain ⟨⟨j, hj⟩, halive⟩ := mem_liveBlocks_iff.1 (List.mem_of_find?_eq_some hc)
    have hcontains := List.find?_some hc
    rw [(h.wf.block j c hj).id_eq]
    exact ⟨c, hj, halive, (h.contains_iff hj halive).1 hcontains⟩
  · rintro ⟨b, hb, halive, hcovers⟩
    unfold liveBlockContaining?
    cases hfind : m.liveBlocks.find? fun b => b.range.contains addr (max len 1) with
    | none =>
      have hnot := List.find?_eq_none.1 hfind b (mem_liveBlocks_iff.2 ⟨⟨id, hb⟩, halive⟩)
      exact absurd ((h.contains_iff hb halive).2 hcovers) hnot
    | some c =>
      obtain ⟨⟨j, hj⟩, hcl⟩ := mem_liveBlocks_iff.1 (List.mem_of_find?_eq_some hfind)
      have hcontains := List.find?_some hfind
      have hcc := (h.contains_iff hj hcl).1 hcontains
      obtain rfl := h.eq_of_covers hb halive hj hcl hcovers hcc
      rw [Option.map_some, (h.wf.block id c hj).id_eq]

end Usable

end Memory

/-! ## Accesses -/

/-- An access of `len` bytes through the pointer goes to this block, which has number `id`, at an
offset. -/
def Block.Reaches (id : BlockId) (b : Block) (p : Pointer) (len offset : Nat) : Prop :=
  match p with
  | .null => False
  | .logical block o => block = id ∧ o = offset ∧ offset + len ≤ b.size
  | .physical addr visited owner =>
    b.Covers addr len ∧ offset = addr - b.base ∧ (∀ o, owner = some o → o = id) ∧
      ∀ a ∈ visited, b.base ≤ a ∧ a ≤ b.base + b.size

theorem Block.Reaches.in_bounds {id : BlockId} {b : Block} {p : Pointer} {len offset : Nat}
    (h : b.Reaches id p len offset) : offset + len ≤ b.size := by
  cases p with
  | null => exact h.elim
  | logical block o => exact h.2.2
  | physical addr visited owner =>
    obtain ⟨⟨h1, h2⟩, h3, -⟩ := h
    omega

/-- Some visited address is neither in the block nor right behind it. -/
theorem Block.any_outside_iff {b : Block} {visited : AddrSet} :
    (visited.toList.any fun a => decide (a < b.base) || decide (b.base + b.size < a)) = true ↔
      ¬∀ a ∈ visited, b.base ≤ a ∧ a ≤ b.base + b.size := by
  rw [List.any_eq_true]
  push Not
  refine exists_congr fun a => and_congr_right fun _ => ?_
  simp only [Bool.or_eq_true, decide_eq_true_eq]
  omega

namespace Memory

variable {m : Memory} {id : BlockId} {b : Block} {p : Pointer} {len offset : Nat}

theorem resolve_logical_eq_ok_iff {block : BlockId} {o : Nat} :
    m.resolve (.logical block o) len = .ok (id, offset) ↔
      ∃ b, m.get? id = some b ∧ b.isAlive = true ∧ b.Reaches id (.logical block o) len offset := by
  unfold resolve
  dsimp only
  cases hb : m.get? block with
  | none =>
    simp only [Exec.stuck_ne_ok, false_iff, not_exists]
    rintro b ⟨hid, -, rfl, -⟩
    rw [hb] at hid
    simp at hid
  | some b =>
    dsimp only
    by_cases halive : b.isAlive = true
    · by_cases hin : b.accessInBounds o len = true
      · simp only [halive, hin, Bool.not_true, Bool.false_eq_true, if_false, Except.ok.injEq,
          Prod.mk.injEq]
        have hle : o + len ≤ b.size := by simpa [Block.accessInBounds] using hin
        constructor
        · rintro ⟨rfl, rfl⟩
          exact ⟨b, hb, halive, rfl, rfl, hle⟩
        · rintro ⟨c, -, -, hid, ho, -⟩
          exact ⟨hid, ho⟩
      · simp only [halive, hin, Bool.not_true, Bool.not_false, Bool.false_eq_true, if_false,
          if_true, Exec.wrong_ne_ok, false_iff, not_exists]
        rintro c ⟨hc, -, rfl, rfl, hle⟩
        obtain rfl := Option.some.inj (hb.symm.trans hc)
        exact hin (by simpa [Block.accessInBounds] using hle)
    · simp only [halive, Bool.not_false, if_true, Exec.wrong_ne_ok, false_iff, not_exists]
      rintro c ⟨hc, hcl, rfl, -⟩
      obtain rfl := Option.some.inj (hb.symm.trans hc)
      exact halive hcl

theorem Usable.resolve_physical_eq_ok_iff (h : m.Usable) {addr : Nat} {visited : AddrSet}
    {owner : Option BlockId} : m.resolve (.physical addr visited owner) len = .ok (id, offset) ↔
      ∃ b, m.get? id = some b ∧ b.isAlive = true ∧
        b.Reaches id (.physical addr visited owner) len offset := by
  have hiff : ∀ {j}, m.liveBlockContaining? addr len = some j ↔ _ :=
    h.liveBlockContaining?_eq_some_iff
  unfold resolve
  dsimp only
  cases hj : m.liveBlockContaining? addr len with
  | none =>
    simp only [Exec.wrong_ne_ok, false_iff, not_exists]
    rintro b ⟨hb, halive, hcovers, -⟩
    rw [hiff.2 ⟨b, hb, halive, hcovers⟩] at hj
    simp at hj
  | some j =>
    obtain ⟨c, hc, hcl, hcc⟩ := hiff.1 hj
    -- any other block that is reached would cover the address too
    have hsame : ∀ b, m.get? id = some b → b.isAlive = true → b.Covers addr len → id = j ∧ b = c := by
      intro b hb hbl hbc
      obtain rfl := h.eq_of_covers hb hbl hc hcl hbc hcc
      exact ⟨rfl, Option.some.inj (hb.symm.trans hc)⟩
    have howner : (owner.any fun o => decide (o ≠ j)) = true ↔ ¬∀ o, owner = some o → o = j := by
      cases owner <;> simp
    simp only [howner, hc, Block.any_outside_iff]
    by_cases ho : ∀ o, owner = some o → o = j
    · by_cases hv : ∀ a ∈ visited, c.base ≤ a ∧ a ≤ c.base + c.size
      · rw [if_neg (not_not.2 ho), if_neg (not_not.2 hv)]
        simp only [Except.ok.injEq, Prod.mk.injEq]
        constructor
        · rintro ⟨rfl, rfl⟩
          exact ⟨c, hc, hcl, hcc, rfl, ho, hv⟩
        · rintro ⟨b, hb, hbl, hbc, hoffset, -⟩
          obtain ⟨rfl, rfl⟩ := hsame b hb hbl hbc
          exact ⟨rfl, hoffset.symm⟩
      · rw [if_neg (not_not.2 ho), if_pos hv]
        simp only [Exec.wrong_ne_ok, false_iff, not_exists]
        rintro b ⟨hb, hbl, hbc, -, -, hbv⟩
        obtain ⟨rfl, rfl⟩ := hsame b hb hbl hbc
        exact hv hbv
    · rw [if_pos ho]
      simp only [Exec.wrong_ne_ok, false_iff, not_exists]
      rintro b ⟨hb, hbl, hbc, -, hbo, -⟩
      obtain ⟨rfl, rfl⟩ := hsame b hb hbl hbc
      exact ho hbo

/-- An access goes to the live block and the offset that the pointer reaches. -/
theorem Usable.resolve_eq_ok_iff (h : m.Usable) : m.resolve p len = .ok (id, offset) ↔
    ∃ b, m.get? id = some b ∧ b.isAlive = true ∧ b.Reaches id p len offset := by
  cases p with
  | null => simp [resolve, Block.Reaches]
  | logical block o => exact resolve_logical_eq_ok_iff
  | physical addr visited owner => exact h.resolve_physical_eq_ok_iff

/-- An access through a well-formed pointer goes somewhere or goes wrong. -/
theorem Usable.resolve_cases (h : m.Usable) (hp : m.pointerWf p = true) (len : Nat) :
    (∃ id offset, m.resolve p len = .ok (id, offset)) ∨ ∃ ub, m.resolve p len = Exec.wrong ub := by
  cases p with
  | null => exact .inr ⟨_, rfl⟩
  | logical block o =>
    obtain ⟨b, hb⟩ := Option.isSome_iff_exists.1 (pointerWf_logical.1 hp).2
    unfold resolve
    dsimp only
    rw [hb]
    dsimp only
    split
    · exact .inr ⟨_, rfl⟩
    · split
      · exact .inr ⟨_, rfl⟩
      · exact .inl ⟨_, _, rfl⟩
  | physical addr visited owner =>
    unfold resolve
    dsimp only
    split
    · exact .inr ⟨_, rfl⟩
    · next j hj =>
      obtain ⟨c, hc, -⟩ := h.liveBlockContaining?_eq_some_iff.1 hj
      rw [hc]
      dsimp only
      split
      · exact .inr ⟨_, rfl⟩
      · split
        · exact .inr ⟨_, rfl⟩
        · exact .inl ⟨_, _, rfl⟩

end Memory

end PointerSemantics
