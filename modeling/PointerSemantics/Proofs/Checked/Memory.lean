import PointerSemantics.Proofs.Bookkeeping
import PointerSemantics.Proofs.Checked.Pointers
import PointerSemantics.Proofs.Codec

/-!
# Memory on words

Reading, writing, allocating and releasing with words does what it does with numbers, as long as the clock
and the number of the next block do not reach the largest word (`Memory.CanAllocate`). An access that is in
bounds takes a slice of the bytes of its block because a block has as many bytes as its size says.
-/

namespace PointerSemantics

namespace Checked

theorem mapM_eq_map {α β : Type} {f : α → β} {g : α → Checked β} {as : List α}
    (h : ∀ a ∈ as, g a = .ok (f a)) : as.mapM g = .ok (as.map f) := by
  induction as with
  | nil => rfl
  | cons a as ih =>
    obtain ⟨ha, has⟩ := List.forall_mem_cons.1 h
    rw [List.mapM_cons, ha, ih has]
    rfl

/-! ## Bytes -/

/-- Bit `i` of a value stored at a type. -/
def bit (v : Value) (ty : Ty) (i : Nat) : Checked Bit :=
  match v, ty with
  | .num width bits, .int w =>
    if width = w then
      if i < 64 then do return .val ((← shiftRight bits i) % 2 = 1)
      else .ok (.val false)
    else .ok .poison
  | .ptr .null, .ptr _ => .ok (.val false)
  | .ptr p, .ptr _ => if i < pointerBits then .ok (.ptr p i) else .ok (.val false)
  | _, _ => .ok .poison

/-- The byte of eight bits, each taken by its place. -/
def byteOf (bits : List Bit) : Checked Byte :=
  guarded (bitsPerByte ≤ bits.length) (Byte.ofFn fun i => bits.getD i .poison)

/-- The bytes of a value stored at a type. -/
def encode (v : Value) (ty : Ty) : Checked (List Byte) := do
  let n ← size ty
  let bits ← (List.range (← mul n bitsPerByte)).mapM (bit v ty)
  (List.range n).mapM fun j => byteOf ((bits.drop (bitsPerByte * j)).take bitsPerByte)

/-- The number that concrete bits write, the first of them being bit `i`, on top of `acc`. -/
def concrete? (acc i : Nat) : List Bit → Checked (Option Nat)
  | [] => .ok (some acc)
  | .val b :: rest =>
    if b = true ∧ i < 64 then do concrete? (acc ||| (← shiftLeft 1 i)) (i + 1) rest
    else concrete? acc (i + 1) rest
  | _ => .ok none

/-- The value of bytes read at a type. -/
def decode (bytes : List Byte) (ty : Ty) : Checked Value := do
  let bits := bytes.flatMap Byte.toList
  if bits.any (· == .poison) then return .poison
  else
    match ty, ← concrete? 0 0 bits with
    | .int width, some n => num width n
    | .int _, none => return .poison
    | .ptr _, some n => return if n = 0 then .null else .ptr (.ofAddress n none)
    | .ptr _, none =>
      match Value.symbolic? bits with
      | some p => return .ptr p
      | none => return .poison

section Bytes

variable {v : Value} {ty : Ty}

theorem bit_eq (hv : v.Masked) {i : Nat} (hi : i < bitsPerByte * ty.size) :
    bit v ty i = .ok (v.bit ty i) := by
  cases v with
  | poison => rfl
  | num width n =>
    cases ty with
    | ptr t => rfl
    | int w =>
      unfold bit Value.bit
      dsimp only
      split
      · split
        · next hlt =>
          rw [shiftRight_eq hlt, ok_bind, Nat.testBit_eq_decide_div_mod_eq, Nat.shiftRight_eq_div_pow]
          rfl
        · next hge =>
          have hn : n < Word.count := Nat.lt_of_lt_of_le (hv _ _ rfl) (modulus_le_count width)
          have hpow : n < 2 ^ i := Nat.lt_of_lt_of_le hn (Nat.pow_le_pow_right (by decide) (Nat.not_lt.1 hge))
          rw [Nat.testBit_lt_two_pow hpow]
      · rfl
  | ptr p =>
    cases ty with
    | int w => cases p <;> rfl
    | ptr t =>
      rw [Memory.bits_ptr] at hi
      cases p with
      | null => rfl
      | logical | physical => exact if_pos hi

theorem byteOf_eq {bits : List Bit} {f : Nat → Bit} (h : bits = (List.range bitsPerByte).map f) :
    byteOf bits = .ok (Byte.ofFn f) := by
  subst h
  unfold byteOf
  rw [guarded_eq (by simp)]
  refine congrArg Except.ok (Byte.ext_toList ?_)
  rw [Byte.toList_ofFn, Byte.toList_ofFn]
  refine List.map_congr_left fun i hi => ?_
  have hlt : i < bitsPerByte := List.mem_range.1 hi
  simp [List.getD_eq_getElem?_getD, hlt]

theorem encode_eq (hv : v.Masked) (hty : ty.bitwidth + 7 < Word.count) :
    encode v ty = .ok (v.encode ty) := by
  have hbits : ty.size * bitsPerByte < Word.count := by
    unfold Ty.size bitsPerByte
    omega
  unfold encode
  rw [size_eq hty, ok_bind, mul_eq hbits, ok_bind, Nat.mul_comm, mapM_eq_map fun i hi =>
    bit_eq hv (List.mem_range.1 hi), ok_bind]
  refine mapM_eq_map fun j hj => byteOf_eq ?_
  -- the bits of byte `j`
  have hj : bitsPerByte * j + bitsPerByte ≤ bitsPerByte * ty.size :=
    Nat.mul_le_mul_left bitsPerByte (List.mem_range.1 hj)
  have hsplit : bitsPerByte * ty.size = bitsPerByte * j + (bitsPerByte * ty.size - bitsPerByte * j) := by
    omega
  rw [hsplit, List.range_add, List.map_append, List.drop_left' (by simp), List.map_map, ← List.map_take,
    List.take_range, Nat.min_eq_left (by omega)]
  rfl

/-- Bits beyond a word do not count. -/
theorem add_pow_mul_mod {i : Nat} (hi : 64 ≤ i) (acc k : Nat) :
    (acc + 2 ^ i * k) % Word.count = acc % Word.count := by
  have hpow : 2 ^ i = Word.count * 2 ^ (i - 64) := by
    show 2 ^ i = 2 ^ 64 * 2 ^ (i - 64)
    rw [← Nat.pow_add]
    congr 1
    omega
  rw [hpow, Nat.mul_assoc, Nat.add_mul_mod_self_left]

/-- A bit above a number is added to it. -/
theorem or_two_pow {acc i : Nat} (h : acc < 2 ^ i) : acc ||| 2 ^ i = acc + 2 ^ i := by
  have hdisjoint := Nat.two_pow_add_eq_or_of_lt h 1
  rw [Nat.mul_one] at hdisjoint
  rw [Nat.or_comm, ← hdisjoint, Nat.add_comm]

/-- The number that concrete bits write from place `i` on is added to the number below. -/
theorem concrete?_eq {acc i : Nat} (hacc : acc < 2 ^ min i 64) (bits : List Bit) : concrete? acc i bits =
    .ok ((PointerSemantics.concrete? bits).map fun n => (acc + 2 ^ i * n) % Word.count) := by
  have hword : acc < Word.count :=
    Nat.lt_of_lt_of_le hacc (Nat.pow_le_pow_right (by decide) (Nat.min_le_right _ _))
  induction bits generalizing acc i with
  | nil =>
    show _ = Except.ok (some ((acc + 2 ^ i * 0) % Word.count))
    rw [Nat.mul_zero, Nat.add_zero, Nat.mod_eq_of_lt hword]
    rfl
  | cons bit rest ih =>
    cases bit with
    | poison => rfl
    | ptr p k => rfl
    | val b =>
      -- the places of the remaining bits are one higher
      have hstep : ∀ n, 2 ^ i * (b.toNat + 2 * n) = 2 ^ i * b.toNat + 2 ^ (i + 1) * n := by
        intro n
        rw [Nat.mul_add, Nat.pow_succ, Nat.mul_assoc]
      unfold concrete? PointerSemantics.concrete?
      rw [Option.map_map]
      by_cases hset : b = true ∧ i < 64
      · -- the bit is set in the word
        obtain ⟨rfl, hi⟩ := hset
        rw [Nat.min_eq_left (Nat.le_of_lt hi)] at hacc
        have hlt : acc + 2 ^ i < 2 ^ min (i + 1) 64 := by
          rw [Nat.min_eq_left hi, Nat.pow_succ]
          omega
        have hlt' : acc + 2 ^ i < Word.count :=
          Nat.lt_of_lt_of_le hlt (Nat.pow_le_pow_right (by decide) (Nat.min_le_right _ _))
        rw [if_pos ⟨rfl, hi⟩, shiftLeft_one_eq hi, ok_bind, or_two_pow hacc, ih hlt hlt']
        refine congrArg Except.ok (congrFun (congrArg Option.map (funext fun n => ?_)) _)
        rw [Function.comp_apply, hstep, Bool.toNat_true, Nat.mul_one, Nat.add_assoc]
      · -- it is zero, or beyond the word
        have hlt : acc < 2 ^ min (i + 1) 64 :=
          Nat.lt_of_lt_of_le hacc (Nat.pow_le_pow_right (by decide) (by omega))
        rw [if_neg hset, ih hlt hword]
        refine congrArg Except.ok (congrFun (congrArg Option.map (funext fun n => ?_)) _)
        rw [Function.comp_apply]
        cases b with
        | false => rw [hstep, Bool.toNat_false, Nat.mul_zero, Nat.zero_add]
        | true =>
          have hi : 64 ≤ i := Nat.not_lt.1 fun hi => hset ⟨rfl, hi⟩
          rw [add_pow_mul_mod hi, add_pow_mul_mod (Nat.le_succ_of_le hi)]

theorem decode_eq (bytes : List Byte) (ty : Ty) : decode bytes ty = .ok (Value.decode bytes ty) := by
  have hstart : 0 < 2 ^ min 0 64 := Nat.one_pos
  have hconcrete := concrete?_eq hstart (bytes.flatMap Byte.toList)
  unfold decode Value.decode
  dsimp only
  rw [hconcrete]
  split
  · rfl
  · cases PointerSemantics.concrete? (bytes.flatMap Byte.toList) with
    | none =>
      cases ty with
      | int width => rfl
      | ptr t =>
        dsimp only [Option.map_none, ok_bind]
        cases Value.symbolic? (bytes.flatMap Byte.toList) <;> rfl
    | some n =>
      simp only [Option.map_some, ok_bind, Nat.zero_add, Nat.pow_zero, Nat.one_mul]
      cases ty with
      | int width =>
        dsimp only
        rw [num_eq, ofBits_mod]
      | ptr t => rfl

end Bytes

/-! ## Accesses -/

section Access

variable (m : Memory)

def read (id : BlockId) (offset len : Nat) : Checked (List Byte) := do
  let b ← lift (Exec.ofMemory (m.live id))
  if b.accessInBounds offset len then slice b.bytes offset (← add offset len)
  else lift (Exec.ofMemory (.error (.outOfBounds id offset len b.size)))

def write (id : BlockId) (offset : Nat) (bytes : List Byte) : Checked Memory := do
  let b ← lift (Exec.ofMemory (m.live id))
  if b.accessInBounds offset bytes.length then
    -- the bytes that are replaced
    let _ ← slice b.bytes offset (← add offset bytes.length)
    return { m with blocks := m.blocks.insert id { b with bytes := Memory.overwrite b.bytes offset bytes } }
  else lift (Exec.ofMemory (.error (.outOfBounds id offset bytes.length b.size)))

/-- The value of a type at a pointer. -/
def fetchValue (ty : Ty) (p : Pointer) : Checked Value := do
  let (block, offset) ← resolve m p (← size ty)
  let bytes ← read m block offset (← size ty)
  loaded m (← decode bytes ty)

/-- Memory with a value put at a pointer. -/
def storeValue (ty : Ty) (v : Value) (p : Pointer) : Checked Memory := do
  let (block, offset) ← resolve m p (← size ty)
  write m block offset (← encode v ty)

end Access

section AccessAgreement

variable {m : Memory} {id : BlockId} {offset len : Nat}

/-- The bytes of a live block that an access in bounds goes to. -/
theorem slice_eq_of_inBounds (hm : m.Usable) {b : Block} (hlive : m.live id = .ok b)
    (hbounds : b.accessInBounds offset len = true) : offset + len < Word.count ∧
      offset + len ≤ b.bytes.length := by
  obtain ⟨hb, halive⟩ := Memory.live_eq_ok_iff.1 hlive
  have hlength := (hm.wf.block id b hb).length_bytes
  have hsize := hm.bounds hb halive
  have hmax := hm.lt_max
  have hle : offset + len ≤ b.size := of_decide_eq_true hbounds
  unfold Word.max at hmax
  omega

theorem read_eq (hm : m.Usable) : read m id offset len = lift (Exec.ofMemory (m.read id offset len)) := by
  unfold read Memory.read
  cases hlive : m.live id with
  | error e => rfl
  | ok b =>
    show (if _ then _ else _) = lift (Exec.ofMemory (if _ then _ else _))
    by_cases hbounds : b.accessInBounds offset len = true
    · obtain ⟨hcount, hlength⟩ := slice_eq_of_inBounds hm hlive hbounds
      rw [if_pos hbounds, if_pos hbounds, add_eq hcount, ok_bind, slice_eq (Nat.le_add_right _ _) hlength,
        Nat.add_sub_cancel_left]
      rfl
    · rw [if_neg hbounds, if_neg hbounds]

theorem write_eq (hm : m.Usable) {bytes : List Byte} :
    write m id offset bytes = lift (Exec.ofMemory (m.write id offset bytes)) := by
  unfold write Memory.write
  cases hlive : m.live id with
  | error e => rfl
  | ok b =>
    show (if _ then _ else _) = lift (Exec.ofMemory (if _ then _ else _))
    by_cases hbounds : b.accessInBounds offset bytes.length = true
    · obtain ⟨hcount, hlength⟩ := slice_eq_of_inBounds hm hlive hbounds
      rw [if_pos hbounds, if_pos hbounds, add_eq hcount, ok_bind, slice_eq (Nat.le_add_right _ _) hlength]
      rfl
    · rw [if_neg hbounds, if_neg hbounds]

theorem fetchValue_eq (hm : m.Usable) {ty : Ty} (hty : ty.bitwidth + 7 < Word.count) (p : Pointer) :
    fetchValue m ty p = lift (m.fetchValue ty p) := by
  unfold fetchValue Memory.fetchValue
  rw [size_eq hty, ok_bind, resolve_eq hm]
  refine bind_congr fun x _ => ?_
  dsimp only
  rw [ok_bind, read_eq hm]
  refine bind_congr fun bytes _ => ?_
  rw [decode_eq, ok_bind, loaded_eq (memsz_ne_zero hm)]
  rfl

theorem storeValue_eq (hm : m.Usable) {ty : Ty} (hty : ty.bitwidth + 7 < Word.count) {v : Value}
    (hv : v.Masked) (p : Pointer) : storeValue m ty v p = lift (m.storeValue ty v p) := by
  unfold storeValue Memory.storeValue
  rw [size_eq hty, ok_bind, resolve_eq hm]
  refine bind_congr fun x _ => ?_
  dsimp only
  rw [encode_eq hv hty, ok_bind, write_eq hm]

end AccessAgreement

/-! ## Allocation -/

section Allocation

variable (m : Memory)

def fits (r : AddrRange) (align : Nat) : Checked Bool :=
  if 0 < r.start then do return (← mod r.start align) == 0 && r.stop ≤ m.config.memsz
  else .ok false

/-- The candidates that fit and overlap neither a taken range nor an earlier viable candidate. -/
def viable (size align : Nat) : List AddrRange → List Nat → Checked (List Nat)
  | _, [] => .ok []
  | taken, base :: rest => do
    let r : AddrRange := ⟨base, size⟩
    if (← fits m r align) && r.disjointFrom taken then
      return base :: (← viable size align (r :: taken) rest)
    else viable size align taken rest

/-- Allocates a block under the next number. -/
def allocate (req : Memory.AllocRequest) : Checked (BlockId × Memory) :=
  if req.size = 0 then lift (Exec.ofMemory (.error .emptyRange))
  else if !Word.isPowerOfTwo req.align then lift (Exec.ofMemory (.error (.invalidAlignment req.align)))
  else
    match req.init.filter (·.length ≠ req.size) with
    | some bytes => lift (Exec.ofMemory (.error (.initSizeMismatch req.size bytes.length)))
    | none => do
      let places ← viable m req.size req.align m.reservedRanges req.candidates
      match places, places[req.pick]? with
      | [], _ => lift (Exec.ofMemory (.error (.outOfMemory req.size)))
      | _, none => lift (Exec.ofMemory (.error (.invalidPick req.pick places.length)))
      | _, some base =>
        let block : Block :=
          { id := m.freshId, kind := req.kind, base, size := req.size, born := m.clock,
            died := none, align := req.align,
            bytes := req.init.getD (List.replicate req.size .poison),
            candidates := .ofList places }
        let freshId ← add m.freshId 1
        let clock ← add m.clock 1
        return (m.freshId, { m with blocks := m.blocks.insert m.freshId block, clock, freshId })

/-- Allocates a block at the picked one of the places offered. -/
def place (kind : BlockKind) (size : Option Nat) (candidates : List Nat) (pick : Nat) :
    Checked (BlockId × Memory) :=
  match size, candidates with
  | none, _ | _, [] => lift (.error .outOfMemory)
  | some size, candidates =>
    if candidates.length ≤ pick then lift (Exec.stuck .invalidChoice)
    else allocate m { kind, size, align := m.config.sysalign, init := none, candidates, pick }

/-- Allocates on the heap. The sums by which places are proposed say themselves when they are no words. -/
def malloc (size : Option Nat) : Ask (Checked Effect) :=
  if size = some 0 then .done (.ok (.binding m .null))
  else
    let candidates := m.candidatesFor size
    .ask (.malloc (size.getD Word.max) candidates) fun
      | .null => .ok (.binding m .null)
      | .place i => do
        let (block, m) ← place m .heap size candidates i
        return .binding m (.ptr (.logical block 0))
      | .compare _ => lift (Exec.stuck .invalidChoice)

/-- Allocates on the stack, at least one byte. -/
def alloca (size : Option Nat) : Ask (Checked Effect) :=
  let size := size.map (max · 1)
  let candidates := m.candidatesFor size
  .ask (.alloca (size.getD Word.max) candidates) fun
    | .place i => do
      let (block, m) ← place m .stack size candidates i
      return ⟨m, some (.ptr (.logical block 0)), some block⟩
    | .null | .compare _ => lift (Exec.stuck .invalidChoice)

/-! ## Release -/

/-- Releases a live block. -/
def free (id : BlockId) : Checked Memory := do
  let b ← lift (Exec.ofMemory (m.live id))
  let clock ← add m.clock 1
  return { m with blocks := m.blocks.insert id { b with died := some m.clock }, clock }

/-- Releases the block that a pointer from `malloc` points to. -/
def freePointer (p : Pointer) : Checked Memory :=
  match p with
  | .null => lift (Exec.wrong (.invalidFree "null pointer"))
  | .physical _ _ _ => lift (Exec.wrong (.invalidFree "physical pointer"))
  | .logical block offset =>
    match m.get? block with
    | none => lift (Exec.wrong (.invalidFree "unknown block"))
    | some b =>
      if !b.isAlive then lift (Exec.wrong (.doubleFree block))
      else if offset ≠ 0 then lift (Exec.wrong (.invalidFree "interior pointer"))
      else if b.kind = .stack then lift (Exec.wrong (.invalidFree "stack block"))
      else free m block

end Allocation

section AllocationAgreement

variable {m : Memory} {size : Option Nat}

theorem fits_eq {align : Nat} (h : align ≠ 0) (r : AddrRange) : fits m r align = .ok (m.fits r align) := by
  unfold fits Memory.fits
  by_cases hstart : 0 < r.start
  · rw [if_pos hstart, mod_eq h, ok_bind, decide_eq_true hstart, Bool.true_and]
    rfl
  · rw [if_neg hstart, decide_eq_false hstart, Bool.false_and, Bool.false_and]

theorem viable_eq {align : Nat} (h : align ≠ 0) (size : Nat) (taken : List AddrRange) (bases : List Nat) :
    viable m size align taken bases = .ok (m.viable size align taken bases) := by
  induction bases generalizing taken with
  | nil => rfl
  | cons base rest ih =>
    unfold viable Memory.viable
    dsimp only
    rw [fits_eq h, ok_bind, ih, ih]
    exact (apply_ite Except.ok _ _ _).symm

theorem allocate_eq (hclock : m.clock < Word.max) (hfresh : m.freshId < Word.max) (req : Memory.AllocRequest) :
    allocate m req = lift (Exec.ofMemory (m.allocate req)) := by
  have hclock' : m.clock + 1 < Word.count := Nat.add_lt_of_lt_sub hclock
  have hfresh' : m.freshId + 1 < Word.count := Nat.add_lt_of_lt_sub hfresh
  unfold allocate Memory.allocate
  split
  · rfl
  · split
    · rfl
    · next halign =>
      have halign' : req.align ≠ 0 :=
        Nat.ne_of_gt (Word.pos_of_isPowerOfTwo (by simpa using halign))
      cases req.init.filter (·.length ≠ req.size) with
      | some bytes => rfl
      | none =>
        dsimp only
        rw [viable_eq halign', ok_bind]
        cases hplaces : m.viable req.size req.align m.reservedRanges req.candidates with
        | nil => rfl
        | cons first others =>
          cases (first :: others)[req.pick]? with
          | none => rfl
          | some base =>
            dsimp only
            rw [add_eq hfresh', ok_bind, add_eq hclock']
            rfl

theorem place_eq (hclock : m.clock < Word.max) (hfresh : m.freshId < Word.max) (kind : BlockKind)
    (candidates : List Nat) (pick : Nat) :
    place m kind size candidates pick = lift (m.place kind size candidates pick) := by
  cases size with
  | none => rfl
  | some size =>
    cases candidates with
    | nil => rfl
    | cons first others =>
      unfold place Memory.place
      dsimp only
      rw [lift_ite, allocate_eq hclock hfresh]

theorem malloc_eq (hclock : m.clock < Word.max) (hfresh : m.freshId < Word.max) :
    malloc m size = (mallocEffect m size).map lift := by
  unfold malloc mallocEffect
  split
  · rfl
  · refine congrArg (Ask.ask _) (funext fun c => ?_)
    cases c with
    | null | compare => rfl
    | place i =>
      dsimp only
      rw [place_eq hclock hfresh]
      exact bind_congr fun x _ => rfl

theorem alloca_eq (hclock : m.clock < Word.max) (hfresh : m.freshId < Word.max) :
    alloca m size = (allocaEffect m size).map lift := by
  unfold alloca allocaEffect
  refine congrArg (Ask.ask _) (funext fun c => ?_)
  cases c with
  | null | compare => rfl
  | place i =>
    dsimp only
    rw [place_eq hclock hfresh]
    exact bind_congr fun x _ => rfl

theorem free_eq (hclock : m.clock < Word.max) (id : BlockId) :
    free m id = lift (Exec.ofMemory (m.free id)) := by
  have hclock' : m.clock + 1 < Word.count := Nat.add_lt_of_lt_sub hclock
  unfold free Memory.free
  cases m.live id with
  | error e => rfl
  | ok b =>
    show (add m.clock 1 >>= _) = _
    rw [add_eq hclock']
    rfl

theorem freePointer_eq (hclock : m.clock < Word.max) (p : Pointer) :
    freePointer m p = lift (m.freePointer p) := by
  unfold freePointer Memory.freePointer
  cases p with
  | null | physical => rfl
  | logical block offset =>
    dsimp only
    cases m.get? block with
    | none => rfl
    | some b =>
      dsimp only
      rw [lift_ite, lift_ite, lift_ite, free_eq hclock]

/-- Several blocks are released if the clock has room for as many ticks. -/
theorem freeAll_eq {ids : List BlockId} (hclock : m.clock + ids.length ≤ Word.max) :
    ids.foldlM free m = lift (Exec.ofMemory (ids.foldlM Memory.free m)) := by
  induction ids generalizing m with
  | nil => rfl
  | cons id ids ih =>
    rw [List.length_cons] at hclock
    have hlt : m.clock < Word.max := Nat.lt_of_lt_of_le (Nat.lt_add_of_pos_right ids.length.succ_pos) hclock
    have hrest : m.clock + 1 + ids.length ≤ Word.max := by
      rw [Nat.add_assoc, Nat.add_comm 1]
      exact hclock
    rw [List.foldlM_cons, List.foldlM_cons, free_eq hlt]
    cases hfree : m.free id with
    | error e => rfl
    | ok m' =>
      obtain ⟨b, -, -, rfl⟩ := Memory.free_eq_ok_iff.1 hfree
      exact ih hrest

end AllocationAgreement

end Checked

end PointerSemantics
