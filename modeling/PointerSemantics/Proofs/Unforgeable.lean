import PointerSemantics.Proofs.Codec

/-!
# Pointers are not made of bytes

A pointer that is read from memory has been stored there as a whole, all of its bytes in their order, or
it is the bare address that concrete bytes write and no block owns it (`Value.decode_eq_ptr_iff`). So the
bytes of a stored pointer are worth nothing once one of them is overwritten: one byte that was kept makes
the rest poison (`Value.decode_of_kept`). A number is read from concrete bits only.
-/

namespace PointerSemantics

/-! ## Lists of bytes -/

/-- Bits write a number exactly if all of them are concrete. -/
theorem exists_concrete?_iff {bits : List Bit} :
    (∃ n, concrete? bits = some n) ↔ ∀ bit ∈ bits, ∃ b, bit = .val b := by
  constructor
  · rintro ⟨n, hn⟩ bit hbit
    rw [eq_of_concrete? hn] at hbit
    obtain ⟨i, -, rfl⟩ := List.mem_map.1 hbit
    exact ⟨_, rfl⟩
  · intro h
    induction bits with
    | nil => exact ⟨0, rfl⟩
    | cons bit bits ih =>
      obtain ⟨⟨b, rfl⟩, hbits⟩ := List.forall_mem_cons.1 h
      obtain ⟨n, hn⟩ := ih hbits
      exact ⟨b.toNat + 2 * n, by rw [concrete?, hn, Option.map_some]⟩

namespace Byte

variable {bytes bytes' : List Byte}

theorem length_flatMap_toList (bytes : List Byte) :
    (bytes.flatMap toList).length = bitsPerByte * bytes.length := by
  induction bytes with
  | nil => rfl
  | cons byte bytes ih =>
    rw [List.flatMap_cons, List.length_append, ih, length_toList, List.length_cons, Nat.mul_succ,
      Nat.add_comm]
    rfl

/-- The bits determine the bytes. -/
theorem eq_of_flatMap_toList (h : bytes.flatMap toList = bytes'.flatMap toList) : bytes = bytes' := by
  have hlength : bytes.length = bytes'.length := by
    have hbits := congrArg List.length h
    rw [length_flatMap_toList, length_flatMap_toList] at hbits
    exact Nat.eq_of_mul_eq_mul_left (by decide) hbits
  induction bytes generalizing bytes' with
  | nil => exact (List.length_eq_zero_iff.1 hlength.symm).symm
  | cons byte bytes ih =>
    cases bytes' with
    | nil => simp at hlength
    | cons byte' bytes' =>
      rw [List.flatMap_cons, List.flatMap_cons] at h
      obtain ⟨hhead, htail⟩ := List.append_inj h (by rw [length_toList, length_toList])
      rw [ext_toList hhead, ih htail (Nat.succ.inj hlength)]

/-- Every bit of the bytes is concrete. -/
def AllConcrete (bytes : List Byte) : Prop := ∀ byte ∈ bytes, ∀ bit ∈ byte.toList, ∃ b, bit = .val b

theorem allConcrete_iff : AllConcrete bytes ↔ ∃ n, concrete? (bytes.flatMap toList) = some n := by
  rw [exists_concrete?_iff, AllConcrete]
  constructor
  · intro h bit hbit
    obtain ⟨byte, hbyte, hbit⟩ := List.mem_flatMap.1 hbit
    exact h byte hbyte bit hbit
  · exact fun h byte hbyte bit hbit => h bit (List.mem_flatMap.2 ⟨byte, hbyte, hbit⟩)

/-- Concrete bytes hold numbers. -/
theorem AllConcrete.exists_values (h : AllConcrete bytes) : ∃ ns, bytes.mapM value? = some ns := by
  induction bytes with
  | nil => exact ⟨[], rfl⟩
  | cons byte bytes ih =>
    obtain ⟨hbyte, hbytes⟩ := List.forall_mem_cons.1 h
    obtain ⟨n, hn⟩ := exists_concrete?_iff.2 hbyte
    obtain ⟨ns, hns⟩ := ih hbytes
    have hvalue : byte.value? = some n := hn
    exact ⟨n :: ns, by rw [List.mapM_cons, hvalue, hns]; rfl⟩

end Byte

namespace Value

variable {bytes : List Byte} {p : Pointer} {t : Ty}

/-! ## Stored pointers -/

theorem isBitOf_iff {bit : Bit} {i : Nat} :
    isBitOf p bit i = true ↔ bit = .ptr p i ∨ bit = .val false ∧ pointerBits ≤ i := by
  unfold isBitOf
  split
  · simp
  · simp
  · next hptr hval =>
    simp only [Bool.false_eq_true, false_iff, not_or, not_and]
    exact ⟨hptr p i, fun hfalse => absurd hfalse hval⟩

/-- Bits that are read as a pointer, no more than a pointer has, are its bits in order. -/
theorem eq_of_symbolic? {bits : List Bit} (h : symbolic? bits = some p)
    (hlength : bits.length ≤ pointerBits) : bits = (List.range bits.length).map (.ptr p) := by
  unfold symbolic? at h
  split at h
  · split at h
    · next hall =>
      obtain rfl := Option.some.inj h
      refine List.ext_getElem (by simp) fun i hi _ => ?_
      have hbit := List.all_eq_true.1 hall _
        (List.mk_mem_zipIdx_iff_getElem?.2 (List.getElem?_eq_getElem hi))
      rw [List.getElem_map, List.getElem_range]
      -- a zero may only stand behind all bits of the pointer
      exact (isBitOf_iff.1 hbit).resolve_right fun hzero => by omega
    · simp at h
  · simp at h

theorem flatMap_encode_ptr (hp : p ≠ .null) :
    ((ptr p).encode (.ptr t)).flatMap Byte.toList = (List.range pointerBits).map (.ptr p) := by
  rw [flatMap_encode, Memory.bits_ptr]
  cases p with
  | null => exact absurd rfl hp
  | logical | physical => rfl

theorem exists_byte_encode_ptr (hp : p ≠ .null) {j : Nat} (hj : j < pointerBytes) :
    ∃ byte, ((ptr p).encode (.ptr t))[j]? = some byte ∧ .ptr p (bitsPerByte * j) ∈ byte.toList := by
  have hsize : (Ty.ptr t).size = pointerBytes := by
    simp [Ty.size, Ty.bitwidth, pointerBits, pointerBytes]
  refine ⟨.ofFn fun i => (ptr p).bit (.ptr t) (bitsPerByte * j + i), ?_, ?_⟩
  · rw [encode, hsize, List.getElem?_map, List.getElem?_range hj, Option.map_some]
  · rw [Byte.toList_ofFn]
    refine List.mem_map.2 ⟨0, by decide, ?_⟩
    cases p with
    | null => exact absurd rfl hp
    | logical | physical => rfl

/-! ## What is read at a pointer type -/

section Decode

variable (hlength : bytes.length = pointerBytes)
include hlength

theorem length_bits : (bytes.flatMap Byte.toList).length = pointerBits := by
  rw [Byte.length_flatMap_toList, hlength]
  rfl

theorem decode_ptr_of_concrete? {n : Nat} (h : concrete? (bytes.flatMap Byte.toList) = some n) :
    decode bytes (.ptr t) = if n = 0 then null else ptr (.ofAddress n none) := by
  have hlt := lt_of_concrete? h
  have hword : n < Word.count := by
    rw [length_bits hlength] at hlt
    exact Nat.lt_trans hlt (by decide)
  rw [decode_testBit (eq_of_concrete? h), Nat.mod_eq_of_lt hlt]
  simp only [Nat.mod_eq_of_lt hword]

/-- As many bytes as a pointer has are poison, or concrete, or one pointer bit by bit. -/
theorem decode_ptr_cases (t : Ty) : decode bytes (.ptr t) = poison ∨
    (∃ n, concrete? (bytes.flatMap Byte.toList) = some n) ∨
      ∃ q, decode bytes (.ptr t) = ptr q ∧
        bytes.flatMap Byte.toList = (List.range pointerBits).map (.ptr q) := by
  cases hconcrete : concrete? (bytes.flatMap Byte.toList) with
  | some n => exact .inr (.inl ⟨n, rfl⟩)
  | none =>
    by_cases hpoison : .poison ∈ bytes.flatMap Byte.toList
    · exact .inl (decode_of_poison hpoison)
    · rw [decode_of_ne_poison fun bit hbit heq => hpoison (heq ▸ hbit)]
      simp only [hconcrete]
      split
      · next q hq =>
        have hbits := length_bits hlength
        have heq := eq_of_symbolic? hq (Nat.le_of_eq hbits)
        rw [hbits] at heq
        exact .inr (.inr ⟨q, rfl, heq⟩)
      · exact .inl rfl

/-- They are read as a pointer if it was stored in them as a whole, or if it is the address that they
write. -/
theorem decode_eq_ptr_iff (hp : p ≠ .null) : decode bytes (.ptr t) = ptr p ↔
    bytes = (ptr p).encode (.ptr t) ∨
      ∃ n, concrete? (bytes.flatMap Byte.toList) = some n ∧ n ≠ 0 ∧ p = .ofAddress n none := by
  constructor
  · intro h
    rcases decode_ptr_cases hlength t with hpoison | ⟨n, hn⟩ | ⟨q, hq, hbits⟩
    · simp [hpoison] at h
    · rw [decode_ptr_of_concrete? hlength hn] at h
      split at h
      · exact absurd (Value.ptr.inj h).symm hp
      · next hzero => exact .inr ⟨n, hn, hzero, (Value.ptr.inj h).symm⟩
    · obtain rfl : q = p := Value.ptr.inj (hq.symm.trans h)
      exact .inl (Byte.eq_of_flatMap_toList (hbits.trans (flatMap_encode_ptr hp).symm))
  · rintro (rfl | ⟨n, hn, hzero, rfl⟩)
    · exact decode_ptr (flatMap_encode_ptr hp)
    · rw [decode_ptr_of_concrete? hlength hn, if_neg hzero]

/-- One byte of a stored pointer that was kept makes the rest poison, unless all were kept. -/
theorem decode_of_kept (hp : p ≠ .null) {j : Nat} (hj : j < pointerBytes)
    (hkept : bytes[j]? = ((ptr p).encode (.ptr t))[j]?) (hne : bytes ≠ (ptr p).encode (.ptr t)) :
    decode bytes (.ptr t) = poison := by
  have hbit : .ptr p (bitsPerByte * j) ∈ bytes.flatMap Byte.toList := by
    obtain ⟨byte, hbyte, hmem⟩ := exists_byte_encode_ptr (t := t) hp hj
    exact List.mem_flatMap.2 ⟨byte, List.mem_of_getElem? (hkept.trans hbyte), hmem⟩
  rcases decode_ptr_cases hlength t with hpoison | hconcrete | ⟨q, -, hbits⟩
  · exact hpoison
  · obtain ⟨b, hb⟩ := exists_concrete?_iff.1 hconcrete _ hbit
    simp at hb
  · -- the bits are those of one pointer, which is the one that the kept byte belongs to
    rw [hbits] at hbit
    obtain ⟨i, -, hi⟩ := List.mem_map.1 hbit
    obtain rfl : q = p := (Bit.ptr.inj hi).1
    exact absurd (Byte.eq_of_flatMap_toList (hbits.trans (flatMap_encode_ptr hp).symm)) hne

end Decode

/-! ## What is read at an integer type -/

theorem decode_int_eq_num_iff (w : Nat) :
    (∃ v n, decode bytes (.int w) = num v n) ↔ Byte.AllConcrete bytes := by
  rw [Byte.allConcrete_iff]
  constructor
  · rintro ⟨v, n, h⟩
    cases hconcrete : concrete? (bytes.flatMap Byte.toList) with
    | some k => exact ⟨k, rfl⟩
    | none =>
      by_cases hpoison : .poison ∈ bytes.flatMap Byte.toList
      · simp [decode_of_poison hpoison] at h
      · rw [decode_of_ne_poison fun bit hbit heq => hpoison (heq ▸ hbit)] at h
        simp [hconcrete] at h
  · rintro ⟨n, hn⟩
    exact ⟨w, _, decode_int_of_concrete? w hn⟩

/-! ## No forgery -/

/-- The number that bytes write is that of their digits in base 256. -/
theorem concrete?_eq_some_iff {n : Nat} : concrete? (bytes.flatMap Byte.toList) = some n ↔
    ∃ ns, bytes.mapM Byte.value? = some ns ∧ n = (ns.mapIdx fun j n => n * 256 ^ j).sum := by
  constructor
  · intro h
    obtain ⟨ns, hns⟩ := (Byte.allConcrete_iff.2 ⟨n, h⟩).exists_values
    have hdigits := Option.some.inj (h.symm.trans (concrete?_of_values hns))
    exact ⟨ns, hns, hdigits.trans (Nat.ofDigits_eq_sum_mapIdx 256 ns)⟩
  · rintro ⟨ns, hns, rfl⟩
    rw [concrete?_of_values hns, Nat.ofDigits_eq_sum_mapIdx]

/-- Pointers are not made of bytes. The pointers other than null that can be read are those stored in the
bytes as a whole, and the addresses that concrete bytes write, which nobody owns. A stored pointer of
which some but not all bytes were replaced is poison. Numbers are read from concrete bits alone. -/
theorem unforgeable :
    (∀ t bytes p, bytes.length = pointerBytes → p ≠ .null →
      (decode bytes (.ptr t) = ptr p ↔ bytes = (ptr p).encode (.ptr t) ∨
        ∃ ns, bytes.mapM Byte.value? = some ns ∧ (ns.mapIdx fun j n => n * 256 ^ j).sum ≠ 0 ∧
          p = .physical (ns.mapIdx fun j n => n * 256 ^ j).sum .empty none)) ∧
      (∀ t bytes p j, bytes.length = pointerBytes → p ≠ .null → j < pointerBytes →
        bytes[j]? = ((ptr p).encode (.ptr t))[j]? → bytes ≠ (ptr p).encode (.ptr t) →
          decode bytes (.ptr t) = poison) ∧
      ∀ w bytes, (∃ v n, decode bytes (.int w) = num v n) ↔ Byte.AllConcrete bytes := by
  refine ⟨?_, ?_, ?_⟩
  · intro t bytes p hlength hp
    rw [decode_eq_ptr_iff hlength hp]
    refine or_congr_right ?_
    simp only [concrete?_eq_some_iff]
    constructor
    · rintro ⟨n, ⟨ns, hns, rfl⟩, hzero, hphysical⟩
      exact ⟨ns, hns, hzero, hphysical⟩
    · rintro ⟨ns, hns, hzero, hphysical⟩
      exact ⟨_, ⟨ns, hns, rfl⟩, hzero, hphysical⟩
  · intro t bytes p j hlength hp hj hkept hne
    exact decode_of_kept hlength hp hj hkept hne
  · exact fun w bytes => decode_int_eq_num_iff w

/-- The halves of two pointers into one block are poison together, and so is a pointer with one byte
overwritten. Four concrete bytes are an address that nobody owns. A pointer is no number. -/
theorem halves_unforgeable :
    let first := (ptr (.logical 1 0)).encode (.ptr (.int 8))
    let second := (ptr (.logical 1 4)).encode (.ptr (.int 8))
    decode (first.take 2 ++ second.drop 2) (.ptr (.int 8)) = poison ∧
      decode (first.set 2 (.ofNat 0)) (.ptr (.int 8)) = poison ∧
      decode [.ofNat 0x40, .ofNat 1, .ofNat 0, .ofNat 0] (.ptr (.int 8)) =
        ptr (.physical 0x140 .empty none) ∧
      ¬Byte.AllConcrete first := by
  obtain ⟨hread, hkept, hnumber⟩ := unforgeable
  refine ⟨?_, ?_, ?_, ?_⟩
  · exact hkept (.int 8) _ (.logical 1 0) 0 (by decide) (by decide) (by decide) (by decide) (by decide)
  · exact hkept (.int 8) _ (.logical 1 0) 0 (by decide) (by decide) (by decide) (by decide) (by decide)
  · exact (hread (.int 8) _ _ (by decide) (by decide)).2
      (.inr ⟨[0x40, 1, 0, 0], by decide, by decide, by decide⟩)
  · rw [← hnumber 32]
    rintro ⟨v, n, h⟩
    have hpoison : decode ((ptr (.logical 1 0)).encode (.ptr (.int 8))) (.int 32) = poison := by decide
    exact nomatch hpoison.symm.trans h

end Value

end PointerSemantics
