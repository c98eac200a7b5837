import PointerSemantics.Proofs.Memory.Addresses
import PointerSemantics.Proofs.Memory.Stability

/-!
# Moving a pointer adds to its address

Logical pointers, physical pointers and null are moved in different ways: an offset is changed, an address is
changed, an address is made. All of them add to the address of the pointer, modulo the size of the address
space (`Memory.Confined.address_movePointer`), so plain moves add up (`Memory.address_movePointer_and_add`).

A memory that passes the check may hold a dead block of any size. One as large as the address space has an end
that is no offset, and a move in bounds gets there (`Memory.fullBlock_move_not_wf`); programs make no such
block.
-/

namespace PointerSemantics

namespace Memory

variable {m : Memory} {p q : Pointer} {id : BlockId} {b : Block} {a o : Nat} {delta : Int}

theorem natCast_wrap (h : m.config.validate = .ok ()) (i : Int) :
    (m.wrap i : Int) = i % (m.config.memsz : Int) := by
  have hpos := MemConfig.memsz_pos h
  have hnonneg := Int.emod_nonneg i (b := (m.config.memsz : Int)) (by omega)
  unfold wrap
  omega

namespace Confined

/-- In a memory whose dead blocks are smaller than the address space, all blocks are. -/
theorem size_lt (h : m.Confined)
    (hdead : ∀ id b, m.get? id = some b → b.isAlive = false → b.size < m.config.memsz)
    (hb : m.get? id = some b) : b.size < m.config.memsz := by
  by_cases halive : b.isAlive = true
  · have hbounds := h.bounds hb halive
    omega
  · exact hdead id b hb (Bool.eq_false_iff.2 halive)

/-- The address of an offset that is `delta` further, modulo the size of the address space. -/
theorem address_offset (h : m.Confined) (hb : m.get? id = some b) (ho : o < m.config.memsz)
    (ha : m.address (.logical id o) = .ok a) {k : Nat} (hk : k < m.config.memsz)
    (hmod : (k : Int) % m.config.memsz = (o + delta) % m.config.memsz) :
    ∃ c, m.address (.logical id k) = .ok c ∧ (c : Int) = (a + delta) % m.config.memsz := by
  rw [h.address_eq hb ho] at ha
  refine ⟨_, h.address_eq hb hk, ?_⟩
  rw [← Except.ok.inj ha]
  calc ((((b.base + k) % m.config.memsz : Nat)) : Int)
      = (b.base + (k : Int) % m.config.memsz) % m.config.memsz := by
        rw [Int.natCast_emod, Int.natCast_add, Int.add_emod_emod]
    _ = ((b.base + o : Nat) + delta) % m.config.memsz := by
        rw [hmod, Int.add_emod_emod, ← Int.add_assoc, Int.natCast_add]
    _ = (((b.base + o) % m.config.memsz : Nat) + delta) % m.config.memsz := by
        rw [Int.natCast_emod, Int.emod_add_emod]

/-- Where a pointer goes, its address goes. -/
theorem address_movePointer (h : m.Confined)
    (hdead : ∀ id b, m.get? id = some b → b.isAlive = false → b.size < m.config.memsz)
    (hp : m.pointerWf p = true) (ha : m.address p = .ok a) {inbounds : Bool}
    (hq : m.movePointer p delta inbounds = .ptr q) :
    ∃ c, m.address q = .ok c ∧ (c : Int) = (a + delta) % m.config.memsz := by
  have hwrap := natCast_wrap h.valid
  cases p with
  | null =>
    obtain rfl : 0 = a := Except.ok.inj ha
    unfold movePointer at hq
    dsimp only at hq
    by_cases hzero : delta = 0
    · rw [if_pos hzero] at hq
      obtain rfl := Value.ptr.inj hq
      exact ⟨0, rfl, by simp [hzero]⟩
    rw [if_neg hzero] at hq
    by_cases hin : inbounds = true
    · rw [if_pos hin] at hq
      cases hq
    rw [if_neg hin] at hq
    by_cases haround : m.wrap delta = 0
    · rw [if_pos haround] at hq
      obtain rfl := Value.ptr.inj hq
      have hdelta := hwrap delta
      rw [haround] at hdelta
      exact ⟨0, rfl, by simpa using hdelta⟩
    · rw [if_neg haround] at hq
      obtain rfl := Value.ptr.inj hq
      exact ⟨m.wrap delta, rfl, by simpa using hwrap delta⟩
  | logical id o =>
    obtain ⟨ho, hid⟩ := pointerWf_logical.1 hp
    obtain ⟨b, hb⟩ := Option.isSome_iff_exists.1 hid
    unfold movePointer at hq
    dsimp only at hq
    cases inbounds with
    | false =>
      obtain rfl := Value.ptr.inj hq
      refine h.address_offset hb ho ha (wrap_lt h.valid _) ?_
      rw [hwrap, Int.emod_emod]
    | true =>
      simp only [hb, Bool.not_true, Bool.false_eq_true, if_false] at hq
      by_cases hin : o ≤ b.size ∧ 0 ≤ (o : Int) + delta ∧ (o : Int) + delta ≤ b.size
      · rw [if_pos hin] at hq
        obtain rfl := Value.ptr.inj hq
        have hsize := h.size_lt hdead hb
        refine h.address_offset hb ho ha (by omega) ?_
        rw [Int.toNat_of_nonneg hin.2.1]
      · rw [if_neg hin] at hq
        cases hq
  | physical addr visited owner =>
    obtain rfl : addr = a := Except.ok.inj ha
    unfold movePointer at hq
    dsimp only at hq
    cases inbounds with
    | false =>
      obtain rfl := Value.ptr.inj hq
      exact ⟨_, rfl, hwrap _⟩
    | true =>
      simp only [Bool.not_true, Bool.false_eq_true, if_false] at hq
      by_cases hin : 0 ≤ (addr : Int) + delta ∧ (addr : Int) + delta < m.config.memsz
      · rw [if_pos hin] at hq
        obtain rfl := Value.ptr.inj hq
        refine ⟨_, rfl, ?_⟩
        rw [Int.toNat_of_nonneg hin.1, Int.emod_eq_of_lt hin.1 hin.2]
      · rw [if_neg hin] at hq
        cases hq

end Confined

/-- A plain move makes a pointer of every pointer. -/
theorem exists_movePointer_plain (p : Pointer) (delta : Int) :
    ∃ q, m.movePointer p delta false = .ptr q := by
  cases p with
  | null =>
    unfold movePointer
    by_cases hzero : delta = 0
    · exact ⟨.null, if_pos hzero⟩
    · by_cases haround : m.wrap delta = 0
      · exact ⟨.null, by simp [hzero, haround, Value.null]⟩
      · exact ⟨.ofAddress (m.wrap delta) none, by simp [hzero, haround]⟩
  | logical id o => exact ⟨_, rfl⟩
  | physical addr visited owner => exact ⟨_, rfl⟩

/-- The address of a pointer that is moved is the address of the pointer and the distance, modulo the size of
the address space; a plain move always makes a pointer, and two of them lead where one by both distances
does. -/
theorem address_movePointer_and_add (hinvariant : m.checkInvariants = .ok ())
    (hvalid : m.config.validate = .ok ())
    (hdead : ∀ id b, m.get? id = some b → b.isAlive = false →
      b.base + b.size ≤ m.config.memsz ∧ b.size < m.config.memsz)
    (hp : m.pointerWf p = true) : ∃ a, m.address p = .ok a ∧
      (∀ delta inbounds q, m.movePointer p delta inbounds = .ptr q → m.pointerWf q = true ∧
        ∃ c, m.address q = .ok c ∧ (c : Int) = (a + delta) % m.config.memsz) ∧
      (∀ delta, ∃ q, m.movePointer p delta false = .ptr q) ∧
      ∀ d₁ d₂, ∃ q r s c, m.movePointer p d₁ false = .ptr q ∧ m.movePointer q d₂ false = .ptr r ∧
        m.movePointer p (d₁ + d₂) false = .ptr s ∧ m.address r = .ok c ∧ m.address s = .ok c := by
  have h : m.Confined :=
    ⟨⟨checkInvariants_eq_ok_iff.1 hinvariant, hvalid⟩, fun id b hb halive => (hdead id b hb halive).1⟩
  have hsmall : ∀ id b, m.get? id = some b → b.isAlive = false → b.size < m.config.memsz :=
    fun id b hb halive => (hdead id b hb halive).2
  have hwf : ∀ {p q delta inbounds}, m.pointerWf p = true → m.movePointer p delta inbounds = .ptr q →
      m.pointerWf q = true := by
    intro p q delta inbounds hp hq
    have hmoved := pointsWell_movePointer hvalid (fun _ _ => h.size_lt hsmall) hp delta inbounds
    exact hmoved q hq
  obtain ⟨a, ha⟩ := exists_address hp
  refine ⟨a, ha, ?_, exists_movePointer_plain p, ?_⟩
  · intro delta inbounds q hq
    exact ⟨hwf hp hq, h.address_movePointer hsmall hp ha hq⟩
  · intro d₁ d₂
    obtain ⟨q, hq⟩ := exists_movePointer_plain (m := m) p d₁
    obtain ⟨r, hr⟩ := exists_movePointer_plain (m := m) q d₂
    obtain ⟨s, hs⟩ := exists_movePointer_plain (m := m) p (d₁ + d₂)
    obtain ⟨b, hb, hmodb⟩ := h.address_movePointer hsmall hp ha hq
    obtain ⟨c, hc, hmodc⟩ := h.address_movePointer hsmall (hwf hp hq) hb hr
    obtain ⟨e, he, hmode⟩ := h.address_movePointer hsmall hp ha hs
    have heq : (c : Int) = e := by
      rw [hmodc, hmodb, hmode, Int.emod_add_emod, Int.add_assoc]
    obtain rfl := Int.ofNat.inj heq
    exact ⟨q, r, s, c, hq, hr, hs, hc, he⟩

/-- A memory of 64 bytes with one block, which was released. -/
def releasedBlock (base size : Nat) : Memory where
  blocks := Table.empty.insert 0
    { id := 0, kind := .heap, base := base, size := size, born := 0, died := some 1, align := 8,
      bytes := List.replicate size .poison, candidates := .ofList [base] }
  clock := 2
  freshId := 1
  config := ⟨64, 8, 2⟩

theorem get?_releasedBlock {base size : Nat} (hb : (releasedBlock base size).get? id = some b) :
    b.base = base ∧ b.size = size := by
  have hget : (releasedBlock base size).get? id = if id = 0 then _ else none :=
    Table.find?_insert Table.empty 0 _ id
  rw [hget] at hb
  by_cases hid : id = 0
  · rw [if_pos hid] at hb
    obtain rfl := Option.some.inj hb
    exact ⟨rfl, rfl⟩
  · rw [if_neg hid] at hb
    cases hb

/-- Back beyond address zero from a block that is dead: eight and two, less thirteen, is 61. -/
theorem releasedBlock_move :
    (releasedBlock 8 4).movePointer (.logical 0 2) (-13) false = .ptr (.logical 0 53) ∧
      (releasedBlock 8 4).pointerWf (.logical 0 53) = true ∧
      (releasedBlock 8 4).address (.logical 0 53) = .ok 61 := by
  have hmove : (releasedBlock 8 4).movePointer (.logical 0 2) (-13) false = .ptr (.logical 0 53) := by
    decide +kernel
  have hdead : ∀ id b, (releasedBlock 8 4).get? id = some b → b.isAlive = false →
      b.base + b.size ≤ 64 ∧ b.size < 64 := by
    intro id b hb _
    obtain ⟨hbase, hsize⟩ := get?_releasedBlock hb
    omega
  have haddr : (releasedBlock 8 4).address (.logical 0 2) = .ok 10 := by decide +kernel
  obtain ⟨a, ha, hall, -⟩ := address_movePointer_and_add (m := releasedBlock 8 4) (p := .logical 0 2)
    (by decide +kernel) (by decide) hdead (by decide +kernel)
  obtain rfl := Except.ok.inj (haddr.symm.trans ha)
  obtain ⟨hwf, c, hc, hmod⟩ := hall (-13) false _ hmove
  obtain rfl : c = 61 := Int.ofNat.inj hmod
  exact ⟨hmove, hwf, hc⟩

/-- The memory passes the check and its dead block lies in the address space, but the end of the block is no
offset. -/
theorem fullBlock_move_not_wf :
    (releasedBlock 0 64).checkInvariants = .ok () ∧ (releasedBlock 0 64).config.validate = .ok () ∧
      (∀ id b, (releasedBlock 0 64).get? id = some b → b.base + b.size ≤ 64) ∧
      (releasedBlock 0 64).pointerWf (.logical 0 60) = true ∧
      (releasedBlock 0 64).movePointer (.logical 0 60) 4 true = .ptr (.logical 0 64) ∧
      (releasedBlock 0 64).pointerWf (.logical 0 64) = false := by
  refine ⟨by decide +kernel, by decide, ?_, by decide +kernel, by decide +kernel, by decide +kernel⟩
  intro id b hb
  obtain ⟨hbase, hsize⟩ := get?_releasedBlock hb
  omega

end Memory

end PointerSemantics
