/-!
# First-class types

Integers of a bit width and pointers. Integers have 1 to 64 bits, pointers are 32 bits wide whatever
they point to.
-/

namespace PointerSemantics

/-- Bytes in a pointer. -/
def pointerBytes : Nat := 4

/-- Bits in a pointer. -/
def pointerBits : Nat := 8 * pointerBytes

/-- The widest integer type. -/
def maxIntBits : Nat := 64

inductive Ty where
  | int (bits : Nat)
  | ptr (pointee : Ty)
deriving DecidableEq, Inhabited

namespace Ty

def isPtr : Ty → Bool
  | int _ => false
  | ptr _ => true

def isInt : Ty → Bool
  | int _ => true
  | ptr _ => false

def pointee? : Ty → Option Ty
  | int _ => none
  | ptr t => some t

/-- Bits of a value of the type. -/
def bitwidth : Ty → Nat
  | int bits => bits
  | ptr _ => pointerBits

/-- Bytes a value of the type takes in memory: its bits rounded up to whole bytes. -/
def size (t : Ty) : Nat := (t.bitwidth + 7) / 8

/-- An integer has 1 to 64 bits; a pointer points to a valid type. -/
def isValid : Ty → Bool
  | int bits => 1 ≤ bits && bits ≤ maxIntBits
  | ptr t => t.isValid

def text : Ty → String
  | int bits => s!"i{bits}"
  | ptr t => t.text ++ "*"

end Ty

end PointerSemantics
