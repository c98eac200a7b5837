import Mathlib.Algebra.BigOperators.Group.List.Basic
import Mathlib.Algebra.BigOperators.Ring.List
import PointerSemantics.Proofs.Casts
import PointerSemantics.Proofs.Moves

/-!
# The distance of a moved pointer

A move in bounds changes the offset of a logical pointer and the address of a physical one, and leaves null
where it is. The distance of two pointers is that of their offsets or of their addresses. The pointer a move
starts from and the one it gives are of one kind, so the distance never needs to compare an offset with an
address, nor does it look at memory: it is what the pointer was moved by (`pointerDistance_of_movePointer`),
also over a path of moves (`pointerDistance_of_moveAlong`).
-/

namespace PointerSemantics

/-! ## Pointers some bytes apart -/

/-- The second pointer is of the kind of the first, in the same block if it has an offset, and `delta` bytes
further. -/
inductive Pointer.Ahead (delta : Int) : Pointer → Pointer → Prop
  | null : delta = 0 → Ahead delta .null .null
  | logical {block : BlockId} {o k : Nat} :
    (k : Int) = o + delta → Ahead delta (.logical block o) (.logical block k)
  | physical {a c : Nat} {visited visited' : AddrSet} {owner owner' : Option BlockId} :
    (c : Int) = a + delta → Ahead delta (.physical a visited owner) (.physical c visited' owner')

namespace Pointer.Ahead

variable {p q r : Pointer} {delta d₁ d₂ i : Int}

theorem refl (p : Pointer) : Ahead 0 p p := by
  cases p with
  | null => exact .null rfl
  | logical => exact .logical (Int.add_zero _).symm
  | physical => exact .physical (Int.add_zero _).symm

theorem symm (h : Ahead delta p q) : Ahead (-delta) q p := by
  cases h with
  | null h => exact .null (by omega)
  | logical h => exact .logical (by omega)
  | physical h => exact .physical (by omega)

theorem trans (h₁ : Ahead d₁ p q) (h₂ : Ahead d₂ q r) : Ahead (d₁ + d₂) p r := by
  cases h₁ with
  | null h₁ => cases h₂ with | null h₂ => exact .null (by omega)
  | logical h₁ => cases h₂ with | logical h₂ => exact .logical (by omega)
  | physical h₁ => cases h₂ with | physical h₂ => exact .physical (by omega)

/-- Pointers `i` elements apart have the distance `i`, in every memory. -/
theorem pointerDistance {s : Nat} (h : Ahead (i * s) p q) (hs : 1 ≤ s) (m : Memory) :
    m.pointerDistance q p s = .ofInt pointerBits i := by
  have hsize : max s 1 = s := Nat.max_eq_left hs
  have hdivides : (i * s).tmod s = 0 := Int.mul_tmod_left i s
  have hquotient : (i * s).tdiv s = i := Int.mul_tdiv_cancel i (by omega)
  have hbytes : ∀ {o k : Nat}, (k : Int) = o + i * s → (k : Int) - o = i * s := fun h => by omega
  unfold Memory.pointerDistance
  rw [hsize]
  cases h with
  | null h => simp only [Memory.address, Int.sub_self, ← h, hdivides, hquotient, if_true]
  | logical h => simp only [hbytes h, hdivides, hquotient, if_true]
  | physical h => simp only [Memory.address, hbytes h, hdivides, hquotient, if_true]

end Pointer.Ahead

/-! ## Moves -/

namespace Memory

variable {m : Memory} {p q : Pointer} {delta i : Int} {s : Nat}

theorem ahead_of_moveInBounds (hq : m.moveInBounds (.ptr p) delta = .ptr q) : p.Ahead delta q := by
  cases p with
  | null =>
    by_cases hzero : delta = 0
    · obtain rfl : .null = q := by simpa [moveInBounds, movePointer, hzero, Value.null] using hq
      exact .null hzero
    · simp [moveInBounds, movePointer, hzero] at hq
  | logical id o =>
    cases hb : m.get? id with
    | none => simp [moveInBounds, movePointer, hb] at hq
    | some b =>
      rw [moveInBounds_logical hb] at hq
      split at hq
      · next hin =>
        obtain rfl := Value.ptr.inj hq
        exact .logical (Int.toNat_of_nonneg (by have := hin.2.1; omega))
      · cases hq
  | physical addr visited owner =>
    rw [moveInBounds_physical] at hq
    split at hq
    · next hin =>
      obtain rfl := Value.ptr.inj hq
      exact .physical (Int.toNat_of_nonneg hin.1)
    · cases hq

/-- A path of moves that ends at a pointer started at one. -/
theorem ahead_of_moveAlong {v : Value} {deltas : List Int} (hq : m.moveAlong v deltas = .ptr q) :
    ∃ p, v = .ptr p ∧ p.Ahead deltas.sum q := by
  induction deltas generalizing v with
  | nil => exact ⟨q, hq, .refl q⟩
  | cons delta deltas ih =>
    obtain ⟨r, hr, hrest⟩ := ih hq
    cases v with
    | num | poison => cases hr
    | ptr p =>
      refine ⟨p, rfl, ?_⟩
      rw [List.sum_cons]
      exact (ahead_of_moveInBounds hr).trans hrest

/-- Along a path of moves by whole elements the indices add up. -/
theorem pointerDistance_of_moveAlong (hs : 1 ≤ s) {indices : List Int}
    (hq : m.moveAlong (.ptr p) (indices.map (· * (s : Int))) = .ptr q) (m' : Memory) :
    m'.pointerDistance q p s = .ofInt pointerBits indices.sum := by
  obtain ⟨start, hstart, hahead⟩ := ahead_of_moveAlong hq
  obtain rfl := Value.ptr.inj hstart
  rw [List.sum_map_mul_right, List.map_id'] at hahead
  exact hahead.pointerDistance hs m'

/-- A program that moves a pointer in bounds and subtracts the pointer it started from has the low bits of its
index. -/
theorem compute_psub_of_gep {regs regs' : Table Value} {dst dst' : Reg} {ty : Ty}
    {ptr idx lhs rhs : Operand} {w n : Nat} (hsize : 1 ≤ ty.size) (hp : ptr.eval regs = .ok (.ptr p))
    (hn : idx.eval regs = .ok (.num w n))
    (hgep : (Instruction.gep dst true ty ptr idx).compute m regs = .ok (.ptr q))
    (hl : lhs.eval regs' = .ok (.ptr q)) (hr : rhs.eval regs' = .ok (.ptr p)) (m' : Memory) :
    (Instruction.psub dst' (.ptr ty) lhs rhs).compute m' regs' =
      .ok (.ofInt pointerBits (Word.signed w n)) := by
  rw [compute_gep_inbounds (t := ty) hp rfl hn] at hgep
  have hahead := ahead_of_moveInBounds (Except.ok.inj hgep)
  rw [← hahead.pointerDistance hsize m']
  simp [Instruction.compute, Ty.pointee?, hl, hr, Value.ptrOperand]

/-- The distance from where a pointer was moved in bounds is the number of elements it was moved by, and in
the other direction its negative, both as integers as wide as a pointer. The memory in which the distance is
taken does not matter. -/
theorem pointerDistance_of_movePointer (hs : 1 ≤ s) (hq : m.movePointer p (i * s) true = .ptr q)
    (m' : Memory) :
    m'.pointerDistance q p s = .num 32 (i % 2 ^ 32).toNat ∧
      m'.pointerDistance p q s = .num 32 (-i % 2 ^ 32).toNat := by
  have hahead := ahead_of_moveInBounds hq
  have hback := hahead.symm
  rw [← Int.neg_mul] at hback
  exact ⟨hahead.pointerDistance hs m', hback.pointerDistance hs m'⟩

/-- Three elements of four bytes back in a block that is dead. -/
theorem releasedBlock_pointerDistance :
    (releasedBlock 8 48).movePointer (.logical 0 40) (-3 * (4 : Nat)) true = .ptr (.logical 0 28) ∧
      (releasedBlock 8 48).pointerDistance (.logical 0 28) (.logical 0 40) 4 = .num 32 4294967293 ∧
      (releasedBlock 8 48).pointerDistance (.logical 0 40) (.logical 0 28) 4 = .num 32 3 := by
  have hmove : (releasedBlock 8 48).movePointer (.logical 0 40) (-3 * (4 : Nat)) true =
      .ptr (.logical 0 28) := by decide +kernel
  exact ⟨hmove, pointerDistance_of_movePointer (by decide) hmove (releasedBlock 8 48)⟩

end Memory

end PointerSemantics
