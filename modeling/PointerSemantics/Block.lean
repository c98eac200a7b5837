import PointerSemantics.AddrRange
import PointerSemantics.Byte

/-!
# Blocks

One allocation: where it lies, when it lived, and its bytes. A block reserves a set of twin
addresses, one of which is its base; no other live block may touch any of the reserved ranges, so
that each of them could have been the base.
-/

namespace PointerSemantics

/-- Logical time of an allocation or a release. -/
abbrev Tick := Nat

inductive BlockKind where
  /-- Released when its frame returns -/
  | stack
  /-- Released by `free` -/
  | heap
deriving DecidableEq, Inhabited

structure Block where
  id : BlockId
  kind : BlockKind
  base : Nat
  /-- Size in bytes -/
  size : Nat
  born : Tick
  /-- When the block was released, if it was -/
  died : Option Tick
  align : Nat
  bytes : List Byte
  /-- Reserved twin addresses -/
  candidates : AddrSet
deriving DecidableEq, Inhabited

namespace Block

def isAlive (b : Block) : Bool := b.died.isNone

/-- The addresses the block occupies. -/
def range (b : Block) : AddrRange := ⟨b.base, b.size⟩

/-- The ranges the block reserves, one for each twin address. -/
def reservedRanges (b : Block) : List AddrRange := b.candidates.toList.map fun c => ⟨c, b.size⟩

/-- The offset is that of a byte of the block. -/
def inBounds (b : Block) (offset : Nat) : Bool := offset < b.size

/-- The `len` bytes from an offset on belong to the block. -/
def accessInBounds (b : Block) (offset len : Nat) : Bool := offset + len ≤ b.size

/-- Equality but for the times of allocation and release; being alive counts. -/
def eqModuloClock (a b : Block) : Bool :=
  a.id == b.id && a.kind == b.kind && a.base == b.base && a.size == b.size &&
    a.isAlive == b.isAlive && a.align == b.align && a.bytes == b.bytes &&
    a.candidates == b.candidates

end Block

end PointerSemantics
