import Mathlib.Algebra.Ring.Int.Defs
import PointerSemantics.Evaluation
import PointerSemantics.Proofs.Memory.Addresses
import PointerSemantics.Proofs.Pointers

/-!
# A pointer and its cast moved alike

A logical pointer and the physical pointer cast from its address are moved in bounds by the same
distances. The logical pointer is checked at every move, the physical one keeps the addresses it passes
through and is checked at the access. Both reach what lies at the end of the path if no move leaves the
block (`access_moveAlong_logical_iff`, `access_moveAlong_physical_iff`), so an access through either goes
to the same place (`access_cast_iff`).

The end of the address space is the one exception. It is no address of a physical pointer, so a block that
ends there has no place right behind it for such a pointer to pass through (`edge_cast_ne`).
-/

namespace PointerSemantics

/-! ## Paths -/

/-- The property holds of every number that a path of moves passes through, its start and end included. -/
def Along (P : Int → Prop) (start : Int) (deltas : List Int) : Prop :=
  ∀ moved, moved <+: deltas → P (start + moved.sum)

section Along

variable {P Q : Int → Prop} {start delta : Int} {deltas : List Int}

theorem along_nil : Along P start [] ↔ P start := by
  simp [Along]

theorem along_cons : Along P start (delta :: deltas) ↔ P start ∧ Along P (start + delta) deltas := by
  unfold Along
  constructor
  · intro h
    refine ⟨by simpa using h [] List.nil_prefix, fun moved hmoved => ?_⟩
    have hP := h (delta :: moved) (List.cons_prefix_cons.2 ⟨rfl, hmoved⟩)
    rwa [List.sum_cons, ← Int.add_assoc] at hP
  · rintro ⟨hstart, h⟩ moved hmoved
    rcases List.prefix_cons_iff.1 hmoved with rfl | ⟨rest, rfl, hrest⟩
    · simpa using hstart
    · rw [List.sum_cons, ← Int.add_assoc]
      exact h rest hrest

theorem Along.at_start (h : Along P start deltas) : P start := by
  simpa using h [] List.nil_prefix

theorem Along.at_end (h : Along P start deltas) : P (start + deltas.sum) :=
  h deltas List.prefix_rfl

theorem Along.imp (h : Along P start deltas) (hPQ : ∀ i, P i → Q i) : Along Q start deltas :=
  fun moved hmoved => hPQ _ (h moved hmoved)

theorem along_congr (h : ∀ i, P i ↔ Q i) : Along P start deltas ↔ Along Q start deltas :=
  ⟨fun hP => hP.imp fun i => (h i).1, fun hQ => hQ.imp fun i => (h i).2⟩

theorem along_and : Along (fun i => P i ∧ Q i) start deltas ↔ Along P start deltas ∧ Along Q start deltas :=
  ⟨fun h => ⟨h.imp fun _ => And.left, h.imp fun _ => And.right⟩,
    fun h moved hmoved => ⟨h.1 moved hmoved, h.2 moved hmoved⟩⟩

end Along

/-- The address belongs to the block or lies right behind it. -/
def Block.Encloses (b : Block) (i : Int) : Prop := b.base ≤ i ∧ i ≤ b.base + b.size

instance (b : Block) (i : Int) : Decidable (b.Encloses i) := inferInstanceAs (Decidable (_ ∧ _))

namespace Memory

variable {m : Memory} {id : BlockId} {b : Block} {o len offset : Nat} {target : BlockId × Nat}

/-- The number is one of the addresses. -/
def Addressable (m : Memory) (i : Int) : Prop := 0 ≤ i ∧ i < m.config.memsz

instance (m : Memory) (i : Int) : Decidable (m.Addressable i) := inferInstanceAs (Decidable (_ ∧ _))

/-! ## Moves and accesses of values -/

/-- A value moved in bounds; what is no pointer is poison then. -/
def moveInBounds (m : Memory) (v : Value) (delta : Int) : Value :=
  match v with
  | .ptr p => m.movePointer p delta true
  | .num _ _ | .poison => .poison

/-- A value moved in bounds by one distance after the other. -/
def moveAlong (m : Memory) (v : Value) (deltas : List Int) : Value := deltas.foldl m.moveInBounds v

/-- Where an access of `len` bytes through a value goes. -/
def access (m : Memory) (v : Value) (len : Nat) : Exec (BlockId × Nat) := do
  m.resolve (← v.addressOperand) len

@[simp] theorem access_ptr (p : Pointer) : m.access (.ptr p) len = m.resolve p len := rfl

@[simp] theorem moveAlong_nil (v : Value) : m.moveAlong v [] = v := rfl

@[simp] theorem moveAlong_cons (v : Value) (delta : Int) (deltas : List Int) :
    m.moveAlong v (delta :: deltas) = m.moveAlong (m.moveInBounds v delta) deltas := rfl

/-- There is no way back from poison. -/
theorem access_moveAlong_poison (deltas : List Int) :
    m.access (m.moveAlong .poison deltas) len ≠ .ok target := by
  induction deltas with
  | nil => exact Exec.wrong_ne_ok
  | cons delta deltas ih => exact ih

/-- A `gep inbounds` of a pointer moves it by as many bytes as that many elements have. -/
theorem compute_gep_inbounds {regs : Table Value} {dst : Reg} {ty : Ty} {ptr idx : Operand} {v : Value}
    {w n : Nat} {t : Ty} (hv : ptr.eval regs = .ok v) (ht : v.hasType (.ptr t) = true)
    (hn : idx.eval regs = .ok (.num w n)) :
    (Instruction.gep dst true ty ptr idx).compute m regs =
      .ok (m.moveInBounds v (Word.signed w n * ty.size)) := by
  cases v with
  | num => simp [Value.hasType] at ht
  | poison | ptr => simp [Instruction.compute, hv, hn, Value.ptrOperand, moveInBounds]

/-- A load reads from where an access through its pointer goes. -/
theorem compute_load {regs : Table Value} {dst : Reg} {ty : Ty} {ptr : Operand} {v : Value}
    (hv : ptr.eval regs = .ok v) :
    (Instruction.load dst ty ptr).compute m regs = do
      let (block, offset) ← m.access v ty.size
      let bytes ← Exec.ofMemory (m.read block offset ty.size)
      return m.loaded (Value.decode bytes ty) := by
  simp only [Instruction.compute, hv, Exec.ok_bind, access]
  cases v with
  | num | poison => rfl
  | ptr p =>
    have hp : (Value.ptr p).addressOperand = .ok p := rfl
    simp only [hp, Exec.ok_bind]
    refine bind_congr (m := Exec) fun target => bind_congr (m := Exec) fun bytes => ?_
    cases Value.decode bytes ty with
    | num | poison => rfl
    | ptr q => cases q <;> rfl

/-! ## Logical pointers -/

theorem moveInBounds_logical (hb : m.get? id = some b) (delta : Int) :
    m.moveInBounds (.ptr (.logical id o)) delta =
      if b.Encloses (b.base + o) ∧ b.Encloses (b.base + o + delta) then .ptr (.logical id (o + delta).toNat)
      else .poison := by
  simp only [moveInBounds, movePointer, hb, Bool.not_true, Bool.false_eq_true, if_false]
  refine if_congr ?_ rfl rfl
  unfold Block.Encloses
  omega

/-- An access through a logical pointer that was moved in bounds goes where the moves lead, if none of them
leaves the block. -/
theorem access_moveAlong_logical_iff (hb : m.get? id = some b) (hlive : b.isAlive = true)
    (deltas : List Int) :
    m.access (m.moveAlong (.ptr (.logical id o)) deltas) len = .ok target ↔
      Along b.Encloses (b.base + o) deltas ∧ target = (id, (o + deltas.sum).toNat) ∧
        o + deltas.sum + len ≤ b.size := by
  obtain ⟨j, k⟩ := target
  induction deltas generalizing o with
  | nil =>
    rw [moveAlong_nil, access_ptr, resolve_logical_eq_ok_iff, along_nil, List.sum_nil, Prod.mk.injEq]
    constructor
    · rintro ⟨c, hc, -, rfl, rfl, hle⟩
      obtain rfl := Option.some.inj (hb.symm.trans hc)
      exact ⟨⟨by omega, by omega⟩, ⟨rfl, by omega⟩, by omega⟩
    · rintro ⟨-, ⟨rfl, rfl⟩, hle⟩
      exact ⟨b, hb, hlive, rfl, by omega, by omega⟩
  | cons delta deltas ih =>
    rw [moveAlong_cons, moveInBounds_logical hb, along_cons, List.sum_cons]
    split
    · next hin =>
      have htarget : ((o + delta).toNat : Int) = o + delta := Int.toNat_of_nonneg (by have := hin.2.1; omega)
      rw [ih, htarget, and_iff_right hin.1, ← Int.add_assoc, ← Int.add_assoc]
    · next hout =>
      refine iff_of_false (access_moveAlong_poison deltas) ?_
      rintro ⟨⟨hstart, halong⟩, -⟩
      exact hout ⟨hstart, halong.at_start⟩

/-! ## Physical pointers -/

theorem moveInBounds_physical {addr : Nat} {visited : AddrSet} {owner : Option BlockId} (delta : Int) :
    m.moveInBounds (.ptr (.physical addr visited owner)) delta =
      if m.Addressable (addr + delta) then
        .ptr (.physical (addr + delta).toNat ((visited.insert addr).insert (addr + delta).toNat) owner)
      else .poison := by
  simp only [moveInBounds, movePointer, Bool.not_true, Bool.false_eq_true, if_false]
  rfl

/-- The visited addresses of a pointer that reaches a block are enclosed by it. -/
theorem reaches_insert_iff {addr a : Nat} {visited : AddrSet} {owner : Option BlockId} :
    b.Reaches id (.physical addr (visited.insert a) owner) len offset ↔
      b.Encloses a ∧ b.Reaches id (.physical addr visited owner) len offset := by
  have hencloses : b.Encloses a ↔ b.base ≤ a ∧ a ≤ b.base + b.size := by
    unfold Block.Encloses
    omega
  simp only [Block.Reaches, AddrSet.mem_insert, forall_eq_or_imp, hencloses]
  tauto

/-- An access through a physical pointer that was moved in bounds goes where the moves lead, if none of them
leaves the block or the address space. -/
theorem Usable.access_moveAlong_physical_iff (h : m.Usable) {addr : Nat} {visited : AddrSet}
    {owner : Option BlockId} (haddr : addr < m.config.memsz) (deltas : List Int) :
    m.access (m.moveAlong (.ptr (.physical addr visited owner)) deltas) len = .ok (id, offset) ↔
      ∃ b, m.get? id = some b ∧ b.isAlive = true ∧
        Along (fun i => b.Encloses i ∧ m.Addressable i) addr deltas ∧
        b.Reaches id (.physical (addr + deltas.sum).toNat visited owner) len offset := by
  induction deltas generalizing addr visited with
  | nil =>
    rw [moveAlong_nil, access_ptr, h.resolve_physical_eq_ok_iff, List.sum_nil, Int.add_zero, Int.toNat_natCast]
    refine exists_congr fun b => and_congr_right fun _ => and_congr_right fun _ => ?_
    rw [along_nil, iff_and_self]
    rintro ⟨⟨hlo, hhi⟩, -⟩
    exact ⟨⟨by omega, by omega⟩, by omega, by omega⟩
  | cons delta deltas ih =>
    rw [moveAlong_cons, moveInBounds_physical, List.sum_cons]
    split
    · next hin =>
      have htarget : ((addr + delta).toNat : Int) = addr + delta := Int.toNat_of_nonneg hin.1
      have hlt : (addr + delta).toNat < m.config.memsz := by have := hin.2; omega
      have hstart : m.Addressable addr := ⟨by omega, by omega⟩
      rw [ih hlt, htarget, Int.add_assoc]
      refine exists_congr fun b => and_congr_right fun _ => and_congr_right fun _ => ?_
      -- the move has recorded both its ends, and the second one is where the rest of the path starts
      rw [along_cons, reaches_insert_iff, reaches_insert_iff, htarget]
      constructor
      · rintro ⟨halong, -, hfrom, hreaches⟩
        exact ⟨⟨⟨hfrom, hstart⟩, halong⟩, hreaches⟩
      · rintro ⟨⟨⟨hfrom, -⟩, halong⟩, hreaches⟩
        exact ⟨halong, halong.at_start.1, hfrom, hreaches⟩
    · next hout =>
      refine iff_of_false (access_moveAlong_poison deltas) ?_
      rintro ⟨b, -, -, halong, -⟩
      exact hout (along_cons.1 halong).2.at_start.2

/-! ## Casts -/

/-- The address of a byte of a live block is cast to a pointer that the block owns. -/
theorem Usable.pointerOfInt_of_byte (h : m.Usable) (hb : m.get? id = some b) (hlive : b.isAlive = true)
    (ho : o < b.size) : m.pointerOfInt (b.base + o) = .ptr (.ofAddress (b.base + o) (some id)) := by
  have hbounds := h.bounds hb hlive
  have howner : m.liveBlockContaining? (b.base + o) 1 = some id :=
    h.liveBlockContaining?_eq_some_iff.2 ⟨b, hb, hlive, by omega, by omega⟩
  unfold pointerOfInt
  dsimp only
  rw [Nat.mod_eq_of_lt (by omega), if_neg (by omega), howner]

/-- An access reaches the same place through the pointer cast from an address in the block as through the
pointer there. -/
theorem reaches_cast_iff {j : BlockId} {k : Nat} {i : Int} (hi : b.Encloses (b.base + i)) (hlen : 1 ≤ len) :
    b.Reaches j (.physical (b.base + i).toNat .empty (some id)) len k ↔
      (j, k) = (id, i.toNat) ∧ i + len ≤ b.size := by
  obtain ⟨hlo, hhi⟩ := hi
  rw [Prod.mk.injEq]
  constructor
  · rintro ⟨⟨-, hle⟩, rfl, howner, -⟩
    exact ⟨⟨(howner id rfl).symm, by omega⟩, by omega⟩
  · rintro ⟨⟨rfl, rfl⟩, hle⟩
    refine ⟨⟨by omega, by omega⟩, by omega, fun _ heq => (Option.some.inj heq).symm, fun a ha => ?_⟩
    exact absurd ha (AddrSet.not_mem_empty a)

/-- Inside a live block the end of the address space is the only number that is no address. -/
theorem Usable.along_addressable_iff (h : m.Usable) (hb : m.get? id = some b) (hlive : b.isAlive = true)
    {start : Int} {deltas : List Int} :
    Along (fun i => b.Encloses i ∧ m.Addressable i) start deltas ↔
      Along b.Encloses start deltas ∧ Along (· ≠ m.config.memsz) start deltas := by
  have hbounds := h.bounds hb hlive
  rw [← along_and]
  refine along_congr fun i => and_congr_right fun hi => ?_
  obtain ⟨hlo, hhi⟩ := hi
  unfold Addressable
  omega

/-- The cast of a pointer that was moved gives access to what the pointer gives access to if no move has led
to the end of the address space. -/
theorem Usable.access_moveAlong_cast_iff (h : m.Usable) (hb : m.get? id = some b) (hlive : b.isAlive = true)
    (ho : o < b.size) (hlen : 1 ≤ len) (deltas : List Int) :
    m.access (m.moveAlong (m.pointerOfInt (b.base + o)) deltas) len = .ok target ↔
      m.access (m.moveAlong (.ptr (.logical id o)) deltas) len = .ok target ∧
        Along (· ≠ m.config.memsz) (b.base + o) deltas := by
  have hbounds := h.bounds hb hlive
  obtain ⟨j, k⟩ := target
  rw [h.pointerOfInt_of_byte hb hlive ho, Pointer.ofAddress, h.access_moveAlong_physical_iff (by omega),
    access_moveAlong_logical_iff hb hlive, Int.natCast_add, Int.add_assoc]
  -- both pointers end where the moves lead, which the block encloses
  have hreaches : Along b.Encloses (b.base + o) deltas →
      (b.Reaches j (.physical (b.base + (o + deltas.sum)).toNat .empty (some id)) len k ↔
        (j, k) = (id, (o + deltas.sum).toNat) ∧ o + deltas.sum + len ≤ b.size) := by
    intro hinside
    have hend := hinside.at_end
    rw [Int.add_assoc] at hend
    exact reaches_cast_iff hend hlen
  constructor
  · rintro ⟨c, hc, -, halong, hjk⟩
    -- the owner says which block it is
    obtain rfl : id = j := hjk.2.2.1 id rfl
    obtain rfl := Option.some.inj (hb.symm.trans hc)
    obtain ⟨hinside, hne⟩ := (h.along_addressable_iff hb hlive).1 halong
    exact ⟨⟨hinside, (hreaches hinside).1 hjk⟩, hne⟩
  · rintro ⟨⟨hinside, hjk⟩, hne⟩
    obtain ⟨rfl, -⟩ := Prod.mk.inj hjk.1
    exact ⟨b, hb, hlive, (h.along_addressable_iff hb hlive).2 ⟨hinside, hne⟩, (hreaches hinside).2 hjk⟩

/-- A pointer to a byte of a live block and the pointer cast from its address, moved in bounds by the same
distances, give access to the same place, unless a move leads to the end of the address space. No move inside
a block does if the block ends before that. -/
theorem access_cast_iff {m : Memory} {id : BlockId} {b : Block} {o len : Nat} (deltas : List Int)
    (hinvariant : m.checkInvariants = .ok ()) (hvalid : m.config.validate = .ok ())
    (hb : m.get? id = some b) (hlive : b.isAlive = true) (ho : o < b.size) (hlen : 1 ≤ len) :
    ∃ addr, m.address (.logical id o) = .ok addr ∧
      (∀ target, m.access (m.moveAlong (m.pointerOfInt addr) deltas) len = .ok target ↔
        m.access (m.moveAlong (.ptr (.logical id o)) deltas) len = .ok target ∧
          Along (· ≠ m.config.memsz) addr deltas) ∧
      (b.base + b.size < m.config.memsz → ∀ target,
        m.access (m.moveAlong (m.pointerOfInt addr) deltas) len = .ok target ↔
          m.access (m.moveAlong (.ptr (.logical id o)) deltas) len = .ok target) := by
  have h : m.Usable := ⟨checkInvariants_eq_ok_iff.1 hinvariant, hvalid⟩
  refine ⟨b.base + o, h.address_of_byte hb hlive ho, ?_, ?_⟩
  · intro target
    exact h.access_moveAlong_cast_iff hb hlive ho hlen deltas
  · intro hend target
    rw [h.access_moveAlong_cast_iff hb hlive ho hlen, and_iff_left_iff_imp,
      access_moveAlong_logical_iff hb hlive]
    rintro ⟨halong, -⟩
    refine halong.imp fun i hi => ?_
    have hle := hi.2
    omega

/-- Sixteen addresses with one block from the address eight on. -/
def upperBlock (size : Nat) : Memory where
  blocks := Table.empty.insert 0
    { id := 0, kind := .heap, base := 8, size := size, born := 0, died := none, align := 8,
      bytes := List.replicate size .poison, candidates := .ofList [8] }
  clock := 1
  freshId := 1
  config := ⟨16, 8, 2⟩

/-- Behind the block and back again, inside the address space. -/
theorem upperBlock_cast :
    (upperBlock 4).address (.logical 0 0) = .ok 8 ∧
      (upperBlock 4).access ((upperBlock 4).moveAlong ((upperBlock 4).pointerOfInt 8) [4, -3, 2]) 1 =
        .ok (0, 3) := by
  have hinvariant : (upperBlock 4).checkInvariants = .ok () := by decide +kernel
  obtain ⟨b, hb⟩ : ∃ b, (upperBlock 4).get? 0 = some b := ⟨_, rfl⟩
  have haddr : (upperBlock 4).address (.logical 0 0) = .ok 8 := by decide +kernel
  have hlogical : (upperBlock 4).access
      ((upperBlock 4).moveAlong (.ptr (.logical 0 0)) [4, -3, 2]) 1 = .ok (0, 3) := by
    decide +kernel
  obtain rfl := Option.some.inj hb
  obtain ⟨addr, ha, -, hsame⟩ := access_cast_iff (o := 0) [4, -3, 2] hinvariant (by decide) hb (by decide)
    (by decide) (Nat.le_refl 1)
  obtain rfl := Except.ok.inj (haddr.symm.trans ha)
  exact ⟨haddr, (hsame (by decide) (0, 3)).2 hlogical⟩

/-- A block that ends where the address space ends: the pointer goes behind it and comes back, its cast is
lost there. -/
theorem edge_cast_ne :
    (upperBlock 8).checkInvariants = .ok () ∧ (upperBlock 8).config.validate = .ok () ∧
      (upperBlock 8).liveInBounds 0 0 = true ∧ (upperBlock 8).address (.logical 0 0) = .ok 8 ∧
      (upperBlock 8).access ((upperBlock 8).moveAlong (.ptr (.logical 0 0)) [8, -8]) 1 = .ok (0, 0) ∧
      ∀ target, (upperBlock 8).access
        ((upperBlock 8).moveAlong ((upperBlock 8).pointerOfInt 8) [8, -8]) 1 ≠ .ok target := by
  have hlost : (upperBlock 8).moveAlong ((upperBlock 8).pointerOfInt 8) [8, -8] = .poison := by
    decide +kernel
  refine ⟨by decide +kernel, by decide +kernel, by decide +kernel, by decide +kernel, by decide +kernel,
    fun target => ?_⟩
  rw [hlost]
  exact Exec.wrong_ne_ok

end Memory

end PointerSemantics
