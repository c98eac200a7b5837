import Mathlib.Data.Nat.ModEq
import PointerSemantics.Pointer.Compare
import PointerSemantics.Proofs.Memory.Access

/-!
# Addresses of pointers

The address of a logical pointer is the base of its block and the offset, modulo the size of the
address space. A byte of a live block has an address of its own that is not null
(`Usable.address_of_byte`, `Usable.eq_of_address_eq`).

A release does not move a block, so the blocks of a program lie inside the address space even when
they are dead. `Memory.Confined` says so; the invariant of memory does not. In such a memory different
offsets into one block have different addresses (`Confined.offset_eq`).
-/

namespace PointerSemantics

namespace Memory

variable {m m' : Memory} {id : BlockId} {b : Block} {offset addr : Nat}

/-- Memory is usable, and dead blocks lie inside the address space as live ones do. -/
structure Confined (m : Memory) : Prop extends m.Usable where
  dead : ∀ id b, m.get? id = some b → b.isAlive = false → b.base + b.size ≤ m.config.memsz

/-! ## Addresses of offsets -/

theorem address_logical (hvalid : m.config.validate = .ok ()) (hb : m.get? id = some b)
    (hbase : b.base < m.config.memsz) (ho : offset < m.config.memsz) :
    m.address (.logical id offset) = .ok ((b.base + offset) % m.config.memsz) := by
  have hmemsz := MemConfig.memsz_le hvalid
  have hcount : maxMemsz + maxMemsz < Word.count := by decide
  have hlt : b.base + offset < Word.count := by omega
  simp only [address, addressOf?, hb, Option.map_some, Nat.mod_eq_of_lt hlt]

theorem liveInBounds_iff : m.liveInBounds id offset = true ↔
    ∃ b, m.get? id = some b ∧ b.isAlive = true ∧ offset < b.size := by
  simp [liveInBounds, Option.any_eq_true, Block.inBounds]

theorem address_of_liveAddress? (h : m.liveAddress? id offset = some addr) :
    m.address (.logical id offset) = .ok addr := by
  unfold liveAddress? at h
  split at h
  · simp only [address, h]
  · simp at h

theorem isSome_liveAddress? (hin : m.liveInBounds id offset = true) :
    (m.liveAddress? id offset).isSome = true := by
  obtain ⟨b, hb, hlive, -⟩ := liveInBounds_iff.1 hin
  simp [liveAddress?, addressOf?, hb, hlive]

namespace Usable

/-- The address of a byte of a live block does not wrap around. -/
theorem address_of_byte (h : m.Usable) (hb : m.get? id = some b) (hlive : b.isAlive = true)
    (ho : offset < b.size) : m.address (.logical id offset) = .ok (b.base + offset) := by
  have hbounds := h.bounds hb hlive
  rw [address_logical h.valid hb (by omega) (by omega), Nat.mod_eq_of_lt (by omega)]

theorem pos_of_address (h : m.Usable) (hin : m.liveInBounds id offset = true)
    (ha : m.address (.logical id offset) = .ok addr) : 0 < addr := by
  obtain ⟨b, hb, hlive, ho⟩ := liveInBounds_iff.1 hin
  have hbounds := h.bounds hb hlive
  rw [h.address_of_byte hb hlive ho] at ha
  obtain rfl := Except.ok.inj ha
  omega

/-- Bytes of live blocks at one address are of one block. -/
theorem eq_of_address_eq (h : m.Usable) {j : BlockId} {k : Nat} (hi : m.liveInBounds id offset = true)
    (hj : m.liveInBounds j k = true) (ha : m.address (.logical id offset) = .ok addr)
    (hc : m.address (.logical j k) = .ok addr) : id = j := by
  obtain ⟨b, hb, hbl, ho⟩ := liveInBounds_iff.1 hi
  obtain ⟨c, hc', hcl, hk⟩ := liveInBounds_iff.1 hj
  rw [h.address_of_byte hb hbl ho] at ha
  rw [h.address_of_byte hc' hcl hk] at hc
  obtain rfl := Except.ok.inj ha
  have heq := Except.ok.inj hc
  have hbc : b.Covers (b.base + offset) 1 := ⟨by omega, by omega⟩
  have hcc : c.Covers (b.base + offset) 1 := ⟨by omega, by omega⟩
  exact h.eq_of_covers hb hbl hc' hcl hbc hcc

end Usable

namespace Confined

theorem bound (h : m.Confined) (hb : m.get? id = some b) : b.base + b.size ≤ m.config.memsz := by
  cases hlive : b.isAlive with
  | true => exact (h.bounds hb hlive).2
  | false => exact h.dead id b hb hlive

theorem address_eq (h : m.Confined) (hb : m.get? id = some b) (ho : offset < m.config.memsz) :
    m.address (.logical id offset) = .ok ((b.base + offset) % m.config.memsz) := by
  have hbound := h.bound hb
  have hsize := (h.wf.block id b hb).size_ne_zero
  exact address_logical h.valid hb (by omega) ho

/-- Different offsets into a block, dead or alive, have different addresses. -/
theorem offset_eq (h : m.Confined) (hid : (m.get? id).isSome = true) {o₁ o₂ : Nat}
    (h₁ : o₁ < m.config.memsz) (h₂ : o₂ < m.config.memsz)
    (ha₁ : m.address (.logical id o₁) = .ok addr) (ha₂ : m.address (.logical id o₂) = .ok addr) :
    o₁ = o₂ := by
  obtain ⟨b, hb⟩ := Option.isSome_iff_exists.1 hid
  rw [h.address_eq hb h₁] at ha₁
  rw [h.address_eq hb h₂] at ha₂
  have hmod : b.base + o₁ ≡ b.base + o₂ [MOD m.config.memsz] :=
    (Except.ok.inj ha₁).trans (Except.ok.inj ha₂).symm
  exact Nat.ModEq.eq_of_lt_of_lt (Nat.ModEq.add_left_cancel' b.base hmod) h₁ h₂

/-! ## Changes -/

/-- A change keeps dead blocks in the address space if the blocks that it adds are alive. -/
theorem of_persists (h : m.Confined) (hpersists : m.Persists m') (hwf : m'.Wf)
    (hnew : ∀ id b, m.freshId ≤ id → m'.get? id = some b → b.isAlive = true) : m'.Confined := by
  refine ⟨⟨hwf, by rw [hpersists.config_eq]; exact h.valid⟩, fun id b' hb' hdead => ?_⟩
  cases hb : m.get? id with
  | none =>
    have hlive := hnew id b' (hpersists.fresh id hb (by rw [hb']; rfl)) hb'
    simp [hlive] at hdead
  | some b =>
    obtain ⟨c, hc, hbc⟩ := hpersists.block id b hb
    obtain rfl := Option.some.inj (hb'.symm.trans hc)
    rw [hbc.base_eq, hbc.size_eq, hpersists.config_eq]
    exact h.bound hb

/-- A change that gives out no number adds no block. -/
theorem of_freshId_eq (h : m.Confined) (hpersists : m.Persists m') (hwf : m'.Wf)
    (hfresh : m'.freshId = m.freshId) : m'.Confined := by
  refine h.of_persists hpersists hwf fun id b hid hb => ?_
  have hlt := (hwf.block id b hb).id_lt
  rw [hfresh] at hlt
  exact absurd hlt (Nat.not_lt.2 hid)

theorem write {bytes : List Byte} (h : m.Confined) (hw : m.write id offset bytes = .ok m') :
    m'.Confined := by
  refine h.of_freshId_eq (persists_write hw) (h.wf.write hw) ?_
  obtain ⟨b, -, -, -, rfl⟩ := write_eq_ok_iff.1 hw
  rfl

theorem free (h : m.Confined) (hf : m.free id = .ok m') : m'.Confined := by
  refine h.of_freshId_eq (persists_free hf) (h.wf.free hf) ?_
  obtain ⟨b, -, -, rfl⟩ := free_eq_ok_iff.1 hf
  rfl

theorem freeAll {ids : List BlockId} (h : m.Confined) (hf : ids.foldlM Memory.free m = .ok m') :
    m'.Confined := by
  induction ids generalizing m with
  | nil =>
    obtain rfl := Except.ok.inj hf
    exact h
  | cons id ids ih =>
    obtain ⟨m₁, h₁, hf⟩ := freeAll_cons hf
    exact ih (h.free h₁) hf

theorem allocate {req : AllocRequest} (h : m.Confined) (ha : m.allocate req = .ok (id, m')) :
    m'.Confined := by
  refine h.of_persists (h.wf.persists_allocate ha) (h.wf.allocate ha) fun i b hi hb => ?_
  obtain ⟨-, base, -, -, hget⟩ := get?_allocate ha
  rw [hget] at hb
  split at hb
  · obtain rfl := Option.some.inj hb
    rfl
  · exact absurd (h.wf.block i b hb).id_lt (Nat.not_lt.2 hi)

end Confined

theorem confined_empty {config : MemConfig} (h : config.validate = .ok ()) : (empty config).Confined :=
  ⟨⟨wf_empty config, h⟩, nofun⟩

end Memory

end PointerSemantics
