import Mathlib.Data.Nat.Digits.Lemmas
import PointerSemantics.Byte.Codec
import PointerSemantics.Proofs.Pointers

/-!
# Decoding what was encoded

The bits of an encoded value are the bits of the value in order (`Value.flatMap_encode`). Those of a
number write the number in base two, those of a pointer are the pointer bit by bit, so decoding at the
same type gives the value back, provenance included (`Value.decode_encode`).

The bytes of a number are its digits in base 256, the least significant first, and any concrete bytes are
read as such digits; what they hold beyond the width is dropped (`Value.decode_encode_and_digits`).
-/

namespace PointerSemantics

/-! ## Lists of bits -/

theorem Byte.flatMap_ofFn (f : Nat → Bit) (n : Nat) :
    (List.range n).flatMap (fun j => (ofFn fun i => f (8 * j + i)).toList) =
      (List.range (8 * n)).map f := by
  induction n with
  | zero => rfl
  | succ n ih =>
    rw [List.range_succ, List.flatMap_append, ih, Nat.mul_succ, List.range_add, List.map_append,
      List.map_map, List.flatMap_singleton, toList_ofFn]
    rfl

/-- Concrete bits write the number that they were taken from, as far as they go. -/
theorem concrete?_testBit (n k : Nat) :
    concrete? ((List.range k).map fun i => .val (n.testBit i)) = some (n % 2 ^ k) := by
  induction k generalizing n with
  | zero => rw [Nat.pow_zero, Nat.mod_one]; rfl
  | succ k ih =>
    have htail : ((List.range k).map Nat.succ).map (fun i => Bit.val (n.testBit i)) =
        (List.range k).map fun i => .val ((n / 2).testBit i) := by
      rw [List.map_map]
      exact List.map_congr_left fun i _ => congrArg Bit.val (Nat.testBit_succ n i)
    rw [List.range_succ_eq_map, List.map_cons, htail, concrete?, ih, Option.map_some, Nat.pow_succ',
      Nat.mod_mul, Nat.testBit_zero]
    rcases Nat.mod_two_eq_zero_or_one n with h | h <;> simp [h]

/-- Bits that follow others count by the powers behind those. -/
theorem concrete?_append (as bs : List Bit) : concrete? (as ++ bs) =
    (concrete? as).bind fun a => (concrete? bs).map fun b => a + 2 ^ as.length * b := by
  induction as with
  | nil => simp [concrete?]
  | cons bit as ih =>
    cases bit with
    | val v =>
      rw [List.cons_append, concrete?, concrete?, ih, List.length_cons]
      cases concrete? as with
      | none => rfl
      | some a =>
        cases concrete? bs with
        | none => rfl
        | some b =>
          simp only [Option.bind_some, Option.map_some, Option.some.injEq]
          rw [Nat.pow_succ', Nat.mul_add, Nat.mul_assoc, Nat.add_assoc]
    | ptr p i => rfl
    | poison => rfl

/-- Concrete bits are the bits of the number that they write. -/
theorem eq_of_concrete? {bits : List Bit} {n : Nat} (h : concrete? bits = some n) :
    bits = (List.range bits.length).map fun i => .val (n.testBit i) := by
  induction bits generalizing n with
  | nil => rfl
  | cons bit bits ih =>
    cases bit with
    | val v =>
      obtain ⟨k, hk, rfl⟩ := Option.map_eq_some_iff.1 h
      have hhead : (v.toNat + 2 * k).testBit 0 = v := by cases v <;> simp [Nat.testBit_zero]
      have htail : (v.toNat + 2 * k) / 2 = k := by
        have := v.toNat_le
        omega
      rw [List.length_cons, List.range_succ_eq_map, List.map_cons, List.map_map, hhead]
      refine congrArg (.val v :: ·) ((ih hk).trans (List.map_congr_left fun i _ => congrArg Bit.val ?_))
      rw [Nat.testBit_succ, htail]
    | ptr p i => simp [concrete?] at h
    | poison => simp [concrete?] at h

theorem lt_of_concrete? {bits : List Bit} {n : Nat} (h : concrete? bits = some n) :
    n < 2 ^ bits.length := by
  have hbits := eq_of_concrete? h
  rw [hbits, concrete?_testBit] at h
  exact Option.some.inj h ▸ Nat.mod_lt _ (Nat.two_pow_pos _)

namespace Byte

theorem value?_ofNat (n : Nat) : (ofNat n).value? = some (n % 256) := concrete?_testBit n 8

/-- A concrete byte is that of the number it holds. -/
theorem value?_eq_some_iff {byte : Byte} {n : Nat} : byte.value? = some n ↔ n < 256 ∧ byte = ofNat n := by
  constructor
  · intro h
    have hbits := eq_of_concrete? h
    have hlt := lt_of_concrete? h
    rw [length_toList] at hbits hlt
    exact ⟨hlt, ext_toList hbits⟩
  · rintro ⟨hlt, rfl⟩
    rw [value?_ofNat, Nat.mod_eq_of_lt hlt]

theorem ofNat_mod (n : Nat) : ofNat (n % 256) = ofNat n :=
  (value?_eq_some_iff.1 (value?_ofNat n)).2.symm

end Byte

theorem Word.modulus_of_le {w : Nat} (h : w ≤ maxIntBits) : modulus w = 2 ^ w := by
  have hmin : min w 64 = w := Nat.min_eq_left h
  rw [modulus, hmin]
  rfl

theorem Ty.size_pos {ty : Ty} (h : ty.isValid = true) : 0 < ty.size := by
  cases ty with
  | int w =>
    simp only [isValid, Bool.and_eq_true, decide_eq_true_eq] at h
    simp only [size, bitwidth]
    omega
  | ptr t =>
    show 0 < (pointerBits + 7) / 8
    decide

namespace Value

/-- The bits of a pointer in order are that pointer. -/
theorem symbolic?_ptr (p : Pointer) (k : Nat) :
    symbolic? ((List.range (k + 1)).map (.ptr p)) = some p := by
  have hall : (((List.range (k + 1)).map (Bit.ptr p)).zipIdx.all fun x => isBitOf p x.1 x.2) =
      true := by
    refine List.all_eq_true.2 fun ⟨b, i⟩ hb => ?_
    have hget : ((List.range (k + 1)).map (Bit.ptr p))[i]? = some b :=
      List.mem_zipIdx_iff_getElem?.1 hb
    obtain ⟨hi, rfl⟩ := List.getElem?_eq_some_iff.1 hget
    simp [isBitOf]
  rw [List.range_succ_eq_map, List.map_cons] at hall ⊢
  exact if_pos hall

theorem concrete?_ptr (p : Pointer) (k : Nat) :
    concrete? ((List.range (k + 1)).map (.ptr p)) = none := by
  rw [List.range_succ_eq_map, List.map_cons]
  rfl

/-! ## Decoding -/

section Decode

variable {bytes : List Byte} {n k : Nat} {p : Pointer}

/-- One poison bit makes everything poison. -/
theorem decode_of_poison {ty : Ty} (h : .poison ∈ bytes.flatMap Byte.toList) :
    decode bytes ty = poison :=
  if_pos (List.any_eq_true.2 ⟨.poison, h, rfl⟩)

theorem decode_of_ne_poison {ty : Ty} (h : ∀ bit ∈ bytes.flatMap Byte.toList, bit ≠ .poison) :
    decode bytes ty =
      match ty, concrete? (bytes.flatMap Byte.toList) with
      | .int width, some n => ofBits width n
      | .int _, none => poison
      | .ptr _, some n =>
        if n % Word.count = 0 then null else ptr (.ofAddress (n % Word.count) none)
      | .ptr _, none =>
        match symbolic? (bytes.flatMap Byte.toList) with
        | some p => ptr p
        | none => poison := by
  refine if_neg fun hany => ?_
  obtain ⟨bit, hbit, hpoison⟩ := List.any_eq_true.1 hany
  exact h bit hbit (beq_iff_eq.1 hpoison)

theorem decode_testBit {ty : Ty}
    (h : bytes.flatMap Byte.toList = (List.range k).map fun i => .val (n.testBit i)) :
    decode bytes ty = match ty with
      | .int width => ofBits width (n % 2 ^ k)
      | .ptr _ => if n % 2 ^ k % Word.count = 0 then null
        else ptr (.ofAddress (n % 2 ^ k % Word.count) none) := by
  rw [decode_of_ne_poison (by rw [h]; simp), h, concrete?_testBit]
  cases ty <;> rfl

theorem decode_ptr {t : Ty} (h : bytes.flatMap Byte.toList = (List.range (k + 1)).map (.ptr p)) :
    decode bytes (.ptr t) = ptr p := by
  rw [decode_of_ne_poison (by rw [h]; simp), h, concrete?_ptr, symbolic?_ptr]

end Decode

/-! ## The round trip -/

/-- The bits of the bytes of a value are the bits of the value. -/
theorem flatMap_encode (v : Value) (ty : Ty) :
    (v.encode ty).flatMap Byte.toList = (List.range (bitsPerByte * ty.size)).map (v.bit ty) := by
  unfold encode
  rw [List.flatMap_map]
  exact Byte.flatMap_ofFn (v.bit ty) ty.size

/-- A number of at most 64 bits fits the bytes of its type. -/
theorem mod_two_pow_size {w n : Nat} (hn : n < Word.modulus w) :
    n % 2 ^ (bitsPerByte * (Ty.int w).size) = n := by
  refine Nat.mod_eq_of_lt (Nat.lt_of_lt_of_le hn (Nat.pow_le_pow_right (by decide) ?_))
  simp only [bitsPerByte, Ty.size, Ty.bitwidth]
  omega

/-- Decoding at the type at which a value was encoded gives the value back. -/
theorem decode_encode {v : Value} {ty : Ty} (hty : ty.isValid = true) (hv : v.hasType ty = true)
    (hn : v.NumberWf) : decode (v.encode ty) ty = v := by
  have hbits := flatMap_encode v ty
  cases v with
  | num w n =>
    cases ty with
    | ptr t => simp [hasType] at hv
    | int w' =>
      obtain rfl : w = w' := by simpa [hasType] using hv
      have hlt := (hn w n rfl).2.2
      have hbit : bit (num w n) (.int w) = fun i => .val (n.testBit i) := funext fun i => if_pos rfl
      rw [hbit] at hbits
      rw [decode_testBit hbits, mod_two_pow_size hlt]
      exact congrArg (num w) (Word.truncate_of_lt hlt)
  | ptr p =>
    cases ty with
    | int w => simp [hasType] at hv
    | ptr t =>
      rw [Memory.bits_ptr] at hbits
      cases p with
      | null =>
        have hbit : bit (ptr .null) (.ptr t) = fun i => .val ((0 : Nat).testBit i) :=
          funext fun i => by rw [Nat.zero_testBit]; rfl
        rw [hbit] at hbits
        rw [decode_testBit hbits]
        rfl
      | logical block offset => exact decode_ptr hbits
      | physical addr visited owner => exact decode_ptr hbits
  | poison =>
    refine decode_of_poison ?_
    rw [hbits, List.mem_map]
    refine ⟨0, List.mem_range.2 ?_, rfl⟩
    have := Ty.size_pos hty
    unfold bitsPerByte
    omega

/-! ## Concrete bytes as digits -/

/-- The bytes of a number are its digits in base 256. -/
theorem encode_num (w n : Nat) : (num w n).encode (.int w) =
    (List.range (Ty.int w).size).map fun j => .ofNat (n >>> (bitsPerByte * j) % 256) := by
  refine List.map_congr_left fun j _ => ?_
  rw [Byte.ofNat_mod]
  refine congrArg Byte.ofFn (funext fun i => ?_)
  rw [Nat.testBit_shiftRight]
  exact if_pos rfl

/-- Concrete bytes are read as the digits of a number in base 256. -/
theorem concrete?_of_values {bytes : List Byte} {ns : List Nat} (h : bytes.mapM Byte.value? = some ns) :
    concrete? (bytes.flatMap Byte.toList) = some (Nat.ofDigits 256 ns) := by
  induction bytes generalizing ns with
  | nil =>
    obtain rfl : [] = ns := Option.some.inj h
    rfl
  | cons byte bytes ih =>
    rw [List.mapM_cons] at h
    obtain ⟨n, hn, hrest⟩ := Option.bind_eq_some_iff.1 h
    obtain ⟨ks, hks, hns⟩ := Option.bind_eq_some_iff.1 hrest
    obtain rfl : n :: ks = ns := Option.some.inj hns
    have hbyte : concrete? byte.toList = some n := hn
    rw [List.flatMap_cons, concrete?_append, hbyte, ih hks, Byte.length_toList, Nat.ofDigits_cons]
    rfl

theorem decode_int_of_concrete? {bytes : List Byte} {n : Nat} (w : Nat)
    (h : concrete? (bytes.flatMap Byte.toList) = some n) : decode bytes (.int w) = ofBits w n := by
  rw [decode_testBit (eq_of_concrete? h), Nat.mod_eq_of_lt (lt_of_concrete? h)]

/-- Of a valid type a number is well-formed if it has no bits beyond its width. -/
theorem numberWf_of_hasType {v : Value} {ty : Ty} (hty : ty.isValid = true) (hv : v.hasType ty = true)
    (hn : ∀ w n, v = num w n → n < 2 ^ w) : v.NumberWf := by
  intro w n heq
  have hlt := hn w n heq
  subst heq
  cases ty with
  | ptr t => simp [hasType] at hv
  | int w' =>
    obtain rfl : w = w' := by simpa [hasType] using hv
    obtain ⟨hpos, hle⟩ : 1 ≤ w ∧ w ≤ maxIntBits := by simpa [Ty.isValid] using hty
    exact ⟨hpos, hle, by rwa [Word.modulus_of_le hle]⟩

/-- Every valid value is read back from its bytes. The bytes of a number are its digits in base 256, the
least significant first, and reading concrete bytes as a number keeps the low bits of what they write. -/
theorem decode_encode_and_digits :
    (∀ (ty : Ty) (v : Value), ty.isValid = true → v.hasType ty = true →
      (∀ w n, v = num w n → n < 2 ^ w) →
        (v.encode ty).length = ty.size ∧ decode (v.encode ty) ty = v) ∧
      (∀ w n, (num w n).encode (.int w) =
        (List.range (Ty.int w).size).map fun j => .ofNat (n >>> (8 * j) % 256)) ∧
      ∀ w bytes ns, w ≤ maxIntBits → bytes.mapM Byte.value? = some ns →
        decode bytes (.int w) = num w ((ns.mapIdx fun j n => n * 256 ^ j).sum % 2 ^ w) := by
  refine ⟨?_, encode_num, ?_⟩
  · intro ty v hty hv hn
    exact ⟨length_encode v ty, decode_encode hty hv (numberWf_of_hasType hty hv hn)⟩
  · intro w bytes ns hw hbytes
    rw [decode_int_of_concrete? w (concrete?_of_values hbytes), ofBits, Word.truncate, Word.modulus_of_le hw,
      Nat.ofDigits_eq_sum_mapIdx]

/-- Twelve bits take two bytes, and what stands in the upper half of the second one does not count. -/
theorem twelveBits_decode_encode_and_digits :
    (num 12 0xabc).encode (.int 12) = [.ofNat 0xbc, .ofNat 0x0a] ∧
      decode [.ofNat 0xbc, .ofNat 0x0a] (.int 12) = num 12 0xabc ∧
      decode [.ofNat 0xbc, .ofNat 0xfa] (.int 12) = num 12 0xabc := by
  obtain ⟨hroundtrip, hdigits, hread⟩ := decode_encode_and_digits
  have hencode : (num 12 0xabc).encode (.int 12) = [.ofNat 0xbc, .ofNat 0x0a] := hdigits 12 0xabc
  have hnumber : ∀ w n, num 12 0xabc = num w n → n < 2 ^ w := by
    rintro w n ⟨⟩
    decide
  have hback := (hroundtrip (.int 12) (num 12 0xabc) (by decide) (by decide) hnumber).2
  rw [hencode] at hback
  exact ⟨hencode, hback, hread 12 [.ofNat 0xbc, .ofNat 0xfa] [0xbc, 0xfa] (by decide) (by decide)⟩

end Value

end PointerSemantics
