import PointerSemantics.Proofs.Checked.Words
import PointerSemantics.Proofs.Memory.Stability

/-!
# Pointers on words

Comparing, moving, casting and resolving pointers with words does what it does with numbers where the
memory is usable: the address space is not empty, so that addresses can be taken modulo its size, and live
blocks lie inside it, so that their ends are words and no address in them is below their base.
-/

namespace PointerSemantics

namespace Checked

section Definitions

variable (m : Memory)

/-! ## Addresses -/

/-- The address of an offset in a block. -/
def addressOf? (id : BlockId) (offset : Nat) : Checked (Option Nat) :=
  match m.get? id with
  | none => .ok none
  | some b => do return some (← mod ((b.base + offset) % Word.count) m.config.memsz)

def address (p : Pointer) : Checked Nat :=
  match p with
  | .null => .ok 0
  | .physical addr _ _ => .ok addr
  | .logical block offset => do
    match ← addressOf? m block offset with
    | some addr => return addr
    | none => lift (Exec.ofMemory (.error (.noSuchBlock block)))

/-- The address of an offset in a block that is alive. -/
def liveAddress? (id : BlockId) (offset : Nat) : Checked (Option Nat) :=
  if (m.get? id).any Block.isAlive then addressOf? m id offset else .ok none

/-! ## Comparisons -/

def ptrEq? (p q : Pointer) : Checked (Option Bool) :=
  match p, q with
  | .logical b o, .physical addr _ _ | .physical addr _ _, .logical b o => do
    return (← liveAddress? m b o).map (· == addr)
  | p, q => .ok (m.ptrEq? p q)

def ptrLe? (p q : Pointer) : Checked (Option Bool) :=
  match p, q with
  | .logical b o, .physical addr _ _ => do return (← liveAddress? m b o).map (· ≤ addr)
  | .physical addr _ _, .logical b o => do return (← liveAddress? m b o).map (addr ≤ ·)
  | p, q => .ok (m.ptrLe? p q)

def ptrHolds? (pred : Pred) (p q : Pointer) : Checked (Option Bool) :=
  match pred with
  | .eq => ptrEq? m p q
  | .ne => do return (← ptrEq? m p q).map not
  | .ule => ptrLe? m p q
  | .uge => ptrLe? m q p
  | .ult => do return (← ptrLe? m q p).map not
  | .ugt => do return (← ptrLe? m p q).map not
  | .slt | .sle | .sgt | .sge => .ok none

/-! ## Moves and casts -/

/-- A number as an address. -/
def wrap (i : Int) : Checked Nat := guarded (m.config.memsz ≠ 0) (i % (m.config.memsz : Int)).toNat

/-- The pointer `delta` bytes further, or poison. -/
def movePointer (p : Pointer) (delta : Int) (inbounds : Bool) : Checked Value :=
  match p with
  | .null =>
    if delta = 0 then .ok .null
    else if inbounds then .ok .poison
    else do
      let addr ← wrap m delta
      return if addr = 0 then .null else .ptr (.ofAddress addr none)
  | .logical block offset =>
    let target := (offset : Int) + delta
    if !inbounds then do return .ptr (.logical block (← wrap m target))
    else
      match m.get? block with
      | none => .ok .poison
      | some b =>
        if offset ≤ b.size ∧ 0 ≤ target ∧ target ≤ b.size then .ok (.ptr (.logical block target.toNat))
        else .ok .poison
  | .physical addr visited owner =>
    let target := (addr : Int) + delta
    if !inbounds then do return .ptr (.physical (← wrap m target) visited owner)
    else if 0 ≤ target ∧ target < m.config.memsz then
      .ok (.ptr (.physical target.toNat ((visited.insert addr).insert target.toNat) owner))
    else .ok .poison

/-- A number of bytes in elements of a size. -/
def elements (bytes : Int) (elemSize : Nat) : Checked Value := do
  let elem : Int := (max elemSize 1 : Nat)
  if (← modSigned bytes elem) = 0 then num pointerBits (asWord (← divSigned bytes elem))
  else return .poison

/-- The distance of two pointers in elements of a size. -/
def pointerDistance (l r : Pointer) (elemSize : Nat) : Checked Value :=
  match l, r with
  | .logical b₁ o₁, .logical b₂ o₂ =>
    if b₁ = b₂ then elements ((o₁ : Int) - o₂) elemSize else .ok .poison
  | l, r =>
    match address m l, address m r with
    | .ok a, .ok b => elements ((a : Int) - b) elemSize
    | .error .undefined, _ | _, .error .undefined => .error .undefined
    | _, _ => .ok .poison

/-- The pointer an integer stands for. -/
def pointerOfInt (bits : Nat) : Checked Value := do
  let addr ← mod bits m.config.memsz
  return if addr = 0 then .null else .ptr (.ofAddress addr (m.liveBlockContaining? addr 1))

/-- The value loaded, a physical pointer being taken for its address alone. -/
def loaded (v : Value) : Checked Value :=
  match v with
  | .ptr (.physical bits _ _) => do
    let addr ← mod bits m.config.memsz
    return if addr = 0 then .null else .ptr (.ofAddress addr none)
  | v => .ok v

/-! ## Accesses -/

/-- The block and offset that an access of `len` bytes through a pointer goes to. -/
def resolve (p : Pointer) (len : Nat) : Checked (BlockId × Nat) :=
  match p with
  | .physical addr visited owner =>
    match m.liveBlockContaining? addr len with
    | none => lift (Exec.wrong (.noBlockAtAddress addr))
    | some block =>
      if owner.any (· ≠ block) then lift (Exec.wrong (.provenanceMismatch block))
      else
        match m.get? block with
        | none => lift (Exec.stuck (.memory (.noSuchBlock block)))
        | some b => do
          let offset ← sub addr b.base
          let stop ← add b.base b.size
          if visited.toList.any fun a => a < b.base || stop < a then
            lift (Exec.wrong (.outOfBounds block offset len))
          else return (block, offset)
  | p => lift (m.resolve p len)

end Definitions

/-! ## Agreement -/

section Agreement

variable {m : Memory}

theorem memsz_ne_zero (hm : m.Usable) : m.config.memsz ≠ 0 := Nat.ne_of_gt (MemConfig.memsz_pos hm.valid)

theorem addressOf?_eq (hm : m.config.memsz ≠ 0) (id : BlockId) (offset : Nat) :
    addressOf? m id offset = .ok (m.addressOf? id offset) := by
  unfold addressOf? Memory.addressOf?
  cases m.get? id with
  | none => rfl
  | some b =>
    dsimp only
    rw [mod_eq hm]
    rfl

theorem address_eq (hm : m.config.memsz ≠ 0) (p : Pointer) :
    address m p = lift (Exec.ofMemory (m.address p)) := by
  cases p with
  | null => rfl
  | physical addr visited owner => rfl
  | logical block offset =>
    unfold address Memory.address
    dsimp only
    rw [addressOf?_eq hm]
    cases m.addressOf? block offset <;> rfl

theorem liveAddress?_eq (hm : m.config.memsz ≠ 0) (id : BlockId) (offset : Nat) :
    liveAddress? m id offset = .ok (m.liveAddress? id offset) := by
  unfold liveAddress? Memory.liveAddress?
  rw [addressOf?_eq hm]
  split <;> rfl

theorem ptrEq?_eq (hm : m.config.memsz ≠ 0) (p q : Pointer) : ptrEq? m p q = .ok (m.ptrEq? p q) := by
  unfold ptrEq?
  split
  · rw [liveAddress?_eq hm]
    rfl
  · rw [liveAddress?_eq hm]
    rfl
  · rfl

theorem ptrLe?_eq (hm : m.config.memsz ≠ 0) (p q : Pointer) : ptrLe? m p q = .ok (m.ptrLe? p q) := by
  unfold ptrLe?
  split
  · rw [liveAddress?_eq hm]
    rfl
  · rw [liveAddress?_eq hm]
    rfl
  · rfl

theorem ptrHolds?_eq (hm : m.config.memsz ≠ 0) (pred : Pred) (p q : Pointer) :
    ptrHolds? m pred p q = .ok (m.ptrHolds? pred p q) := by
  unfold ptrHolds? Memory.ptrHolds?
  cases pred <;> dsimp only <;> simp only [ptrEq?_eq hm, ptrLe?_eq hm, ok_bind, pure_eq_ok]

theorem wrap_eq (hm : m.config.memsz ≠ 0) (i : Int) : wrap m i = .ok (m.wrap i) := guarded_eq hm

theorem movePointer_eq (hm : m.config.memsz ≠ 0) (p : Pointer) (delta : Int) (inbounds : Bool) :
    movePointer m p delta inbounds = .ok (m.movePointer p delta inbounds) := by
  unfold movePointer Memory.movePointer
  simp only [wrap_eq hm, ok_bind, pure_eq_ok]
  cases p with
  | null =>
    dsimp only
    split
    · rfl
    · split
      · rfl
      · rfl
  | logical block offset =>
    dsimp only
    split
    · rfl
    · cases m.get? block with
      | none => rfl
      | some b => exact (apply_ite Except.ok _ _ _).symm
  | physical addr visited owner =>
    dsimp only
    split
    · rfl
    · exact (apply_ite Except.ok _ _ _).symm

theorem elements_eq (bytes : Int) (elemSize : Nat) : elements bytes elemSize =
    .ok (if bytes.tmod (max elemSize 1 : Nat) = 0 then
      .ofInt pointerBits (bytes.tdiv (max elemSize 1 : Nat)) else .poison) := by
  have helem : ((max elemSize 1 : Nat) : Int) ≠ 0 := by omega
  unfold elements
  dsimp only
  rw [modSigned_eq helem, ok_bind, divSigned_eq helem, ok_bind, num_eq, ofBits_asWord]
  exact (apply_ite Except.ok _ _ _).symm

theorem pointerDistance_eq (hm : m.config.memsz ≠ 0) (l r : Pointer) (elemSize : Nat) :
    pointerDistance m l r elemSize = .ok (m.pointerDistance l r elemSize) := by
  unfold pointerDistance Memory.pointerDistance
  split
  · next b₁ o₁ b₂ o₂ =>
    by_cases hb : b₁ = b₂
    · simp only [if_pos hb]
      exact elements_eq _ _
    · simp only [if_neg hb]
  · -- addresses decide unless both pointers are logical
    rw [address_eq hm, address_eq hm]
    cases m.address l <;> cases m.address r <;>
      simp only [Exec.ofMemory, lift_ok, Exec.stuck, lift_error, elements_eq]

theorem pointerOfInt_eq (hm : m.config.memsz ≠ 0) (bits : Nat) :
    pointerOfInt m bits = .ok (m.pointerOfInt bits) := by
  unfold pointerOfInt
  rw [mod_eq hm]
  rfl

theorem loaded_eq (hm : m.config.memsz ≠ 0) (v : Value) : loaded m v = .ok (m.loaded v) := by
  cases v with
  | num | poison => rfl
  | ptr p =>
    cases p with
    | null | logical => rfl
    | physical addr visited owner =>
      unfold loaded
      dsimp only
      rw [mod_eq hm]
      rfl

theorem resolve_eq (hm : m.Usable) (p : Pointer) (len : Nat) : resolve m p len = lift (m.resolve p len) := by
  cases p with
  | null | logical => rfl
  | physical addr visited owner =>
    unfold resolve Memory.resolve
    dsimp only
    cases hfind : m.liveBlockContaining? addr len with
    | none => rfl
    | some block =>
      obtain ⟨b, hb, halive, hbase, -⟩ := hm.liveBlockContaining?_eq_some_iff.1 hfind
      have hbounds := hm.bounds hb halive
      have hmax := hm.lt_max
      have hstop : b.base + b.size < Word.count := by
        unfold Word.max at hmax
        omega
      dsimp only
      rw [hb]
      dsimp only
      rw [sub_eq hbase, ok_bind, add_eq hstop, ok_bind, lift_ite, lift_ite]
      rfl

end Agreement

end Checked

end PointerSemantics
