import PointerSemantics.Evaluation
import PointerSemantics.Proofs.Values

/-!
# Pointers that operations make

Moving a well-formed pointer, casting an integer and reading bytes back make well-formed pointers only,
and the bits of a well-formed pointer are well-formed. Whatever the pointers are, the value made has the
type it is made for.
-/

namespace PointerSemantics

namespace Memory

variable {m : Memory} {p : Pointer}

/-! ## Moves and casts -/

theorem wrap_lt (h : m.config.validate = .ok ()) (i : Int) : m.wrap i < m.config.memsz := by
  have hpos := MemConfig.memsz_pos h
  have h1 := Int.emod_nonneg i (b := (m.config.memsz : Int)) (by omega)
  have h2 := Int.emod_lt_of_pos i (b := (m.config.memsz : Int)) (by omega)
  unfold wrap
  omega

theorem pointsWell_null : m.PointsWell .null := by
  intro q hq
  obtain rfl := Value.ptr.inj hq
  rfl

theorem pointsWell_poison : m.PointsWell .poison := nofun

theorem pointsWell_num (w n : Nat) : m.PointsWell (.num w n) := nofun

theorem pointsWell_ofAddress {addr : Nat} {owner : Option BlockId} (h : addr < m.config.memsz)
    (ho : ∀ id, owner = some id → (m.get? id).isSome = true) :
    m.PointsWell (.ptr (.ofAddress addr owner)) :=
  pointsWell_ptr.2 (pointerWf_physical.2 ⟨h, nofun, ho⟩)

/-- A pointer stays well-formed where it is moved, if every block is smaller than the address space: the end
of a block has to be an offset too. -/
theorem pointsWell_movePointer (hvalid : m.config.validate = .ok ())
    (hbounded : ∀ id b, m.get? id = some b → b.size < m.config.memsz) (hp : m.pointerWf p = true)
    (delta : Int) (inbounds : Bool) : m.PointsWell (m.movePointer p delta inbounds) := by
  cases p with
  | null =>
    unfold movePointer
    dsimp only
    split
    · exact pointsWell_null
    · split
      · exact pointsWell_poison
      · split
        · exact pointsWell_null
        · exact pointsWell_ofAddress (wrap_lt hvalid _) nofun
  | logical id offset =>
    have hid := (pointerWf_logical.1 hp).2
    unfold movePointer
    dsimp only
    split
    · exact pointsWell_ptr.2 (pointerWf_logical.2 ⟨wrap_lt hvalid _, hid⟩)
    · cases hb : m.get? id with
      | none => exact pointsWell_poison
      | some b =>
        dsimp only
        split
        · next hin =>
          have := hbounded id b hb
          exact pointsWell_ptr.2 (pointerWf_logical.2 ⟨by omega, hid⟩)
        · exact pointsWell_poison
  | physical addr visited owner =>
    obtain ⟨haddr, hvisited, howner⟩ := pointerWf_physical.1 hp
    unfold movePointer
    dsimp only
    split
    · exact pointsWell_ptr.2 (pointerWf_physical.2 ⟨wrap_lt hvalid _, hvisited, howner⟩)
    · split
      · next hin =>
        refine pointsWell_ptr.2 (pointerWf_physical.2 ⟨by omega, fun a ha => ?_, howner⟩)
        rcases AddrSet.mem_insert.1 ha with rfl | ha
        · omega
        · rcases AddrSet.mem_insert.1 ha with rfl | ha
          · exact haddr
          · exact hvisited a ha
      · exact pointsWell_poison

theorem Sound.pointsWell_movePointer (h : m.Sound) (hp : m.pointerWf p = true) (delta : Int)
    (inbounds : Bool) : m.PointsWell (m.movePointer p delta inbounds) :=
  Memory.pointsWell_movePointer h.valid h.bounded hp delta inbounds

/-- The block found at an address is a live block with those addresses. -/
theorem liveBlockContaining?_eq_some {addr len : Nat} {id : BlockId} (hwf : m.Wf)
    (h : m.liveBlockContaining? addr len = some id) :
    ∃ b, m.get? id = some b ∧ b.isAlive = true ∧ b.range.contains addr (max len 1) = true := by
  obtain ⟨b, hb, rfl⟩ := Option.map_eq_some_iff.1 h
  obtain ⟨⟨id, hid⟩, halive⟩ := mem_liveBlocks_iff.1 (List.mem_of_find?_eq_some hb)
  have hcontains := List.find?_some hb
  rw [(hwf.block id b hid).id_eq]
  exact ⟨b, hid, halive, hcontains⟩

theorem Sound.pointsWell_pointerOfInt (h : m.Sound) (n : Nat) :
    m.PointsWell (m.pointerOfInt n) := by
  unfold pointerOfInt
  dsimp only
  split
  · exact pointsWell_null
  · refine pointsWell_ofAddress (Nat.mod_lt _ (MemConfig.memsz_pos h.valid)) fun id hid => ?_
    obtain ⟨b, hb, -⟩ := liveBlockContaining?_eq_some h.wf hid
    simp [hb]

theorem pointsWell_pointerOfBytes (h : m.config.validate = .ok ()) (n : Nat) :
    m.PointsWell (m.pointerOfBytes n) := by
  unfold pointerOfBytes
  dsimp only
  split
  · exact pointsWell_null
  · exact pointsWell_ofAddress (Nat.mod_lt _ (MemConfig.memsz_pos h)) nofun

/-- A move makes a pointer of a pointer, or poison. -/
theorem hasType_movePointer (p : Pointer) (delta : Int) (inbounds : Bool) {ty : Ty}
    (hty : ty.isPtr = true) : (m.movePointer p delta inbounds).hasType ty = true := by
  unfold movePointer
  cases p <;> dsimp only <;> (repeat' split) <;> simp [Value.null, hty]

theorem hasType_pointerOfInt (n : Nat) {ty : Ty} (hty : ty.isPtr = true) :
    (m.pointerOfInt n).hasType ty = true := by
  unfold pointerOfInt
  dsimp only
  split <;> simp [Value.null, hty]

theorem hasType_pointerOfBytes (n : Nat) {ty : Ty} (hty : ty.isPtr = true) :
    (m.pointerOfBytes n).hasType ty = true := by
  unfold pointerOfBytes
  dsimp only
  split <;> simp [Value.null, hty]

/-! ## Bytes -/

/-- Whatever is loaded, a physical pointer is taken for its address alone. -/
def loaded (m : Memory) (v : Value) : Value :=
  match v with
  | .ptr (.physical addr _ _) => m.pointerOfBytes addr
  | v => v

/-- Of memory only the size of the address space matters to a pointer that is loaded. -/
theorem loaded_congr {m' : Memory} (h : m'.config = m.config) (v : Value) :
    m'.loaded v = m.loaded v := by
  unfold loaded pointerOfBytes
  rw [h]

theorem symbolic?_eq_some {bits : List Bit} (h : Value.symbolic? bits = some p) :
    .ptr p 0 ∈ bits := by
  unfold Value.symbolic? at h
  split at h
  · split at h
    · obtain rfl := Option.some.inj h
      exact List.mem_cons_self
    · simp at h
  · simp at h

/-- What decoding yields: a number at an integer type, or at a pointer type null, an address or a
pointer whose bits are there, or poison. -/
theorem decode_cases (bytes : List Byte) (ty : Ty) :
    Value.decode bytes ty = .poison ∨
      (∃ w n, ty = .int w ∧ Value.decode bytes ty = .ofBits w n) ∨
      ty.isPtr = true ∧ ∃ p, Value.decode bytes ty = .ptr p ∧
        (p = .null ∨ (∃ addr, p = .ofAddress addr none) ∨ .ptr p 0 ∈ bytes.flatMap Byte.toList) := by
  unfold Value.decode
  dsimp only
  split
  · exact .inl rfl
  · split
    · next w n _ => exact .inr (.inl ⟨w, n, rfl, rfl⟩)
    · exact .inl rfl
    · split
      · exact .inr (.inr ⟨rfl, _, rfl, .inl rfl⟩)
      · exact .inr (.inr ⟨rfl, _, rfl, .inr (.inl ⟨_, rfl⟩)⟩)
    · split
      · next p hp => exact .inr (.inr ⟨rfl, p, rfl, .inr (.inr (symbolic?_eq_some hp))⟩)
      · exact .inl rfl

/-- What is loaded at a type has the type. -/
theorem hasType_loaded (bytes : List Byte) (ty : Ty) :
    (m.loaded (Value.decode bytes ty)).hasType ty = true := by
  rcases decode_cases bytes ty with hd | ⟨w, n, rfl, hd⟩ | ⟨hty, p, hd, -⟩
  · rw [hd]; rfl
  · rw [hd]; exact Value.hasType_num.2 rfl
  · rw [hd]
    cases p with
    | null => exact (Value.hasType_ptr _ _).trans hty
    | logical id offset => exact (Value.hasType_ptr _ _).trans hty
    | physical addr visited owner => exact hasType_pointerOfBytes addr hty

theorem Sound.pointsWell_loaded (h : m.Sound) {bytes : List Byte}
    (hbytes : ∀ byte ∈ bytes, ∀ bit ∈ byte.toList, m.bitWf bit = true) (ty : Ty) :
    m.PointsWell (m.loaded (Value.decode bytes ty)) := by
  rcases decode_cases bytes ty with hd | ⟨w, n, -, hd⟩ | ⟨-, p, hd, rfl | ⟨addr, rfl⟩ | hmem⟩
  · rw [hd]; exact pointsWell_poison
  · rw [hd]; exact pointsWell_num _ _
  · rw [hd]; exact pointsWell_null
  · rw [hd]; exact pointsWell_pointerOfBytes h.valid _
  · rw [hd]
    obtain ⟨byte, hbyte, hbit⟩ := List.mem_flatMap.1 hmem
    have hp := hbytes byte hbyte _ hbit
    simp only [bitWf, Bool.and_eq_true] at hp
    cases p with
    | null => exact pointsWell_null
    | logical id offset => exact pointsWell_ptr.2 hp.1
    | physical addr visited owner => exact pointsWell_pointerOfBytes h.valid _

/-- Only a load of an integer yields a number, which has the width of the integer. -/
theorem num_of_loaded {bytes : List Byte} {ty : Ty} {w n : Nat}
    (h : m.loaded (Value.decode bytes ty) = .num w n) : ty = .int w ∧ n < Word.modulus w := by
  have hty := hasType_loaded (m := m) bytes ty
  rw [h, Value.hasType_num] at hty
  subst hty
  refine ⟨rfl, ?_⟩
  rcases decode_cases bytes (.int w) with hd | ⟨width, k, -, hd⟩ | ⟨hptr, -⟩
  · rw [hd] at h
    simp [loaded] at h
  · rw [hd] at h
    obtain ⟨rfl, rfl⟩ := Value.num.inj h
    exact Word.truncate_lt _ _
  · simp [Ty.isPtr] at hptr

theorem mem_encode {v : Value} {ty : Ty} {byte : Byte} {bit : Bit} (hbyte : byte ∈ v.encode ty)
    (hbit : bit ∈ byte.toList) : ∃ i < bitsPerByte * ty.size, bit = v.bit ty i := by
  unfold Value.encode at hbyte
  obtain ⟨j, hj, rfl⟩ := List.mem_map.1 hbyte
  rw [Byte.toList_ofFn] at hbit
  obtain ⟨i, hi, rfl⟩ := List.mem_map.1 hbit
  rw [List.mem_range] at hi hj
  refine ⟨bitsPerByte * j + i, ?_, rfl⟩
  unfold bitsPerByte
  omega

theorem bits_ptr (ty : Ty) : bitsPerByte * (Ty.ptr ty).size = pointerBits := by
  simp [bitsPerByte, Ty.size, Ty.bitwidth, pointerBits, pointerBytes]

/-- The bits of a well-formed value are well-formed. -/
theorem bitWf_encode {v : Value} (hv : m.PointsWell v) {ty : Ty} {byte : Byte}
    (hbyte : byte ∈ v.encode ty) {bit : Bit} (hbit : bit ∈ byte.toList) : m.bitWf bit = true := by
  obtain ⟨i, hi, rfl⟩ := mem_encode hbyte hbit
  unfold Value.bit
  split
  · split <;> rfl
  · rfl
  · next p t hne =>
    rw [bits_ptr] at hi
    simp only [bitWf, Bool.and_eq_true, decide_eq_true_eq]
    exact ⟨pointsWell_ptr.1 hv, hi⟩
  · rfl

end Memory

end PointerSemantics
