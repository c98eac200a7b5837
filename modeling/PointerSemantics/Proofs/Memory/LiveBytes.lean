import PointerSemantics.Proofs.Memory.Addresses

/-!
# The bytes of live blocks and their addresses

Every byte of a live block has one address, behind address zero and inside the address space, and no two
bytes have the same. The search for the live block around an address goes the other way: it finds the
block exactly if all the addresses asked for are those of its bytes, and the offset of the address there is an
offset with that address (`bytes_one_to_one`).

Of the blocks that are dead nothing is said. Their addresses are given out again.
-/

namespace PointerSemantics

/-- A range that is not empty is covered if it starts and ends in the block. -/
theorem Block.covers_iff {b : Block} {addr len : Nat} (hlen : 1 ≤ len) :
    b.Covers addr len ↔ b.base ≤ addr ∧ addr + len ≤ b.base + b.size := by
  unfold Covers
  rw [Nat.max_eq_left hlen]

/-- What is covered can be accessed. -/
theorem Block.Covers.accessInBounds {b : Block} {addr len : Nat} (h : b.Covers addr len) :
    b.accessInBounds (addr - b.base) len = true := by
  obtain ⟨hlo, hhi⟩ := h
  unfold Block.accessInBounds
  rw [decide_eq_true_eq]
  omega

namespace Memory

variable {m : Memory} {id : BlockId} {b : Block} {offset addr len : Nat}

theorem address_logical_eq_ok_iff :
    m.address (.logical id offset) = .ok addr ↔ m.addressOf? id offset = some addr := by
  unfold address
  dsimp only
  cases m.addressOf? id offset <;> simp

namespace Usable

theorem addressOf?_of_byte (h : m.Usable) (hb : m.get? id = some b) (hlive : b.isAlive = true)
    (ho : offset < b.size) : m.addressOf? id offset = some (b.base + offset) :=
  address_logical_eq_ok_iff.1 (h.address_of_byte hb hlive ho)

/-- Bytes of live blocks at one address are one byte. -/
theorem byte_eq_of_addressOf?_eq (h : m.Usable) {j : BlockId} {k : Nat}
    (hi : m.liveInBounds id offset = true) (hj : m.liveInBounds j k = true)
    (heq : m.addressOf? id offset = m.addressOf? j k) : id = j ∧ offset = k := by
  obtain ⟨b, hb, hbl, ho⟩ := liveInBounds_iff.1 hi
  obtain ⟨c, hc, hcl, hk⟩ := liveInBounds_iff.1 hj
  have hib := h.addressOf?_of_byte hb hbl ho
  have hjc := h.addressOf?_of_byte hc hcl hk
  obtain rfl := h.eq_of_address_eq hi hj (address_logical_eq_ok_iff.2 hib)
    (address_logical_eq_ok_iff.2 (heq ▸ hib))
  obtain rfl := Option.some.inj (hb.symm.trans hc)
  have haddr : b.base + offset = b.base + k := Option.some.inj (hib.symm.trans (heq.trans hjc))
  exact ⟨rfl, Nat.add_left_cancel haddr⟩

/-- The offset of an address in the block around it has that address. -/
theorem addressOf?_of_covers (h : m.Usable) (hb : m.get? id = some b) (hlive : b.isAlive = true)
    (hcovers : b.Covers addr len) : m.addressOf? id (addr - b.base) = some addr := by
  obtain ⟨hlo, hhi⟩ := hcovers
  rw [h.addressOf?_of_byte hb hlive (by omega), Nat.add_sub_cancel' hlo]

end Usable

/-- Bytes of live blocks and their addresses belong together one by one, and the block found around some
addresses is the one live block that has bytes there. -/
theorem bytes_one_to_one (hinvariant : m.checkInvariants = .ok ()) (hvalid : m.config.validate = .ok ()) :
    (∀ id b offset, m.get? id = some b → b.isAlive = true → offset < b.size →
      m.addressOf? id offset = some (b.base + offset) ∧
        0 < b.base + offset ∧ b.base + offset < m.config.memsz) ∧
    (∀ i j o k, m.liveInBounds i o = true → m.liveInBounds j k = true →
      m.addressOf? i o = m.addressOf? j k → i = j ∧ o = k) ∧
    (∀ addr len id, 1 ≤ len → (m.liveBlockContaining? addr len = some id ↔
      ∃ b, m.get? id = some b ∧ b.isAlive = true ∧ b.base ≤ addr ∧ addr + len ≤ b.base + b.size)) ∧
    (∀ addr len i j b c, 1 ≤ len →
      m.get? i = some b ∧ b.isAlive = true ∧ b.base ≤ addr ∧ addr + len ≤ b.base + b.size →
      m.get? j = some c ∧ c.isAlive = true ∧ c.base ≤ addr ∧ addr + len ≤ c.base + c.size → i = j) ∧
    ∀ addr len id b, 1 ≤ len → m.liveBlockContaining? addr len = some id → m.get? id = some b →
      b.accessInBounds (addr - b.base) len = true ∧ m.addressOf? id (addr - b.base) = some addr := by
  have h : m.Usable := ⟨checkInvariants_eq_ok_iff.1 hinvariant, hvalid⟩
  refine ⟨?_, fun i j o k => h.byte_eq_of_addressOf?_eq, ?_, ?_, ?_⟩
  · intro id b offset hb hlive ho
    have hbounds := h.bounds hb hlive
    exact ⟨h.addressOf?_of_byte hb hlive ho, by omega, by omega⟩
  · intro addr len id hlen
    rw [h.liveBlockContaining?_eq_some_iff]
    simp only [Block.covers_iff hlen]
  · rintro addr len i j b c hlen ⟨hb, hbl, hbc⟩ ⟨hc, hcl, hcc⟩
    exact h.eq_of_covers hb hbl hc hcl ((Block.covers_iff hlen).2 hbc) ((Block.covers_iff hlen).2 hcc)
  · intro addr len id b hlen hfound hb
    obtain ⟨c, hc, hlive, hcovers⟩ := h.liveBlockContaining?_eq_some_iff.1 hfound
    obtain rfl := Option.some.inj (hb.symm.trans hc)
    exact ⟨hcovers.accessInBounds, h.addressOf?_of_covers hb hlive hcovers⟩

/-- A dead block of four bytes, and a live one of eight that was put at the same address. -/
def reusedAddress : Memory where
  blocks := .ofList
    [(0, { id := 0, kind := .heap, base := 8, size := 4, born := 0, died := some 1, align := 8,
           bytes := List.replicate 4 .poison, candidates := .ofList [8] }),
      (1, { id := 1, kind := .heap, base := 8, size := 8, born := 2, died := none, align := 8,
            bytes := List.replicate 8 .poison, candidates := .ofList [8, 24] })]
  clock := 3
  freshId := 2
  config := ⟨64, 8, 2⟩

/-- The addresses nine to twelve belong to the second block, although three of them were in the first. -/
theorem reusedAddress_bytes_one_to_one :
    reusedAddress.checkInvariants = .ok () ∧ reusedAddress.config.validate = .ok () ∧
      reusedAddress.liveBlockContaining? 9 4 = some 1 ∧ reusedAddress.addressOf? 1 1 = some 9 := by
  have hinvariant : reusedAddress.checkInvariants = .ok () := by decide +kernel
  have hvalid : reusedAddress.config.validate = .ok () := by decide
  obtain ⟨b, hb⟩ : ∃ b, reusedAddress.get? 1 = some b := ⟨_, rfl⟩
  obtain ⟨-, -, hsearch, -, haccess⟩ := bytes_one_to_one hinvariant hvalid
  obtain rfl := Option.some.inj hb
  have hfound := (hsearch 9 4 1 (by decide)).2 ⟨_, rfl, by decide, by decide, by decide⟩
  exact ⟨hinvariant, hvalid, hfound, (haccess 9 4 1 _ (by decide) hfound rfl).2⟩

end Memory

end PointerSemantics
