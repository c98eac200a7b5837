import PointerSemantics.Pointer

/-!
# Bits and bytes

A stored bit is concrete, one bit of a stored pointer, or poison. Because the bits of a pointer stay
symbolic, reading them back yields that pointer with its provenance, and a number that happens to
equal an address yields none.
-/

namespace PointerSemantics

inductive Bit where
  | val (b : Bool)
  /-- Bit `index` of a pointer, the least significant being bit 0 -/
  | ptr (p : Pointer) (index : Nat)
  | poison
deriving DecidableEq, Inhabited

/-- Bits in a byte. -/
def bitsPerByte : Nat := 8

/-- Eight bits, the least significant first. -/
structure Byte where
  bits : Vector Bit 8
deriving DecidableEq

/-- The number that concrete bits write in base two, the least significant first. -/
def concrete? : List Bit → Option Nat
  | [] => some 0
  | .val b :: rest => (concrete? rest).map fun n => b.toNat + 2 * n
  | _ => none

namespace Byte

def poison : Byte := ⟨.replicate 8 .poison⟩

instance : Inhabited Byte := ⟨poison⟩

/-- The byte with bit `i` equal to `f i`. -/
def ofFn (f : Nat → Bit) : Byte := ⟨.ofFn fun i : Fin 8 => f i⟩

/-- The low eight bits of a number. -/
def ofNat (n : Nat) : Byte := ofFn fun i => .val (n.testBit i)

def toList (b : Byte) : List Bit := b.bits.toList

@[simp] theorem length_toList (b : Byte) : b.toList.length = 8 := by simp [toList]

@[simp] theorem toList_ofFn (f : Nat → Bit) : (ofFn f).toList = (List.range 8).map f :=
  rfl

/-- The bits determine the byte. -/
theorem ext_toList {a b : Byte} (h : a.toList = b.toList) : a = b := by
  obtain ⟨⟨as, ha⟩⟩ := a
  obtain ⟨⟨bs, hb⟩⟩ := b
  simpa [toList, Vector.toList] using h

/-- The number a byte holds if all its bits are concrete. -/
def value? (b : Byte) : Option Nat := concrete? b.toList

def hasPoison (b : Byte) : Bool := b.toList.any (· == .poison)

end Byte

end PointerSemantics
