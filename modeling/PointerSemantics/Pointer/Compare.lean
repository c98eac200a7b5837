import PointerSemantics.Instruction
import PointerSemantics.Memory.Access

/-!
# Comparing pointers

Two pointers compare by what their provenance tells. Where only the concrete addresses could tell,
because a block is dead or an offset lies outside, there is no answer. A live block is needed to
trust its address.
-/

namespace PointerSemantics

namespace Memory

/-- The address of a pointer; the block of a logical pointer has to exist. -/
def address (m : Memory) : Pointer → Except MemError Nat
  | .null => .ok 0
  | .physical addr _ _ => .ok addr
  | .logical block offset =>
    match m.addressOf? block offset with
    | some addr => .ok addr
    | none => .error (.noSuchBlock block)

/-- The block is alive and the offset is that of one of its bytes. -/
def liveInBounds (m : Memory) (block : BlockId) (offset : Nat) : Bool :=
  (m.get? block).any fun b => b.isAlive && b.inBounds offset

/-- The address of an offset in a block that is alive. -/
def liveAddress? (m : Memory) (block : BlockId) (offset : Nat) : Option Nat :=
  if (m.get? block).any Block.isAlive then m.addressOf? block offset else none

/-- Whether two pointers are equal, if that can be told. -/
def ptrEq? (m : Memory) (p q : Pointer) : Option Bool :=
  match p, q with
  | .null, .null => some true
  | .logical b₁ o₁, .logical b₂ o₂ =>
    if b₁ = b₂ then some (o₁ == o₂)
    else if m.liveInBounds b₁ o₁ && m.liveInBounds b₂ o₂ then some false
    else none
  | .logical b o, .null | .null, .logical b o => if m.liveInBounds b o then some false else none
  | .logical b o, .physical addr _ _ | .physical addr _ _, .logical b o =>
    (m.liveAddress? b o).map (· == addr)
  | .physical a _ _, .physical b _ _ => some (a == b)
  | .physical addr _ _, .null | .null, .physical addr _ _ => some (addr == 0)

/-- Whether the first pointer is at most the second, if that can be told. -/
def ptrLe? (m : Memory) (p q : Pointer) : Option Bool :=
  match p, q with
  | .null, _ => some true
  | .logical b o, .null => if m.liveInBounds b o then some false else none
  | .physical addr _ _, .null => some (addr == 0)
  | .logical b₁ o₁, .logical b₂ o₂ => if b₁ = b₂ then some (o₁ ≤ o₂) else none
  | .logical b o, .physical addr _ _ => (m.liveAddress? b o).map (· ≤ addr)
  | .physical addr _ _, .logical b o => (m.liveAddress? b o).map (addr ≤ ·)
  | .physical a _ _, .physical b _ _ => some (a ≤ b)

/-- Whether a predicate holds of two pointers, if that can be told. -/
def ptrHolds? (m : Memory) (pred : Pred) (p q : Pointer) : Option Bool :=
  match pred with
  | .eq => m.ptrEq? p q
  | .ne => (m.ptrEq? p q).map not
  | .ule => m.ptrLe? p q
  | .uge => m.ptrLe? q p
  | .ult => (m.ptrLe? q p).map not
  | .ugt => (m.ptrLe? p q).map not
  | .slt | .sle | .sgt | .sge => none

end Memory

end PointerSemantics
