import PointerSemantics.Pointer
import PointerSemantics.Ty
import PointerSemantics.Word

/-!
# Values

What a register holds: an integer with its width, a pointer, or poison. Poison belongs to every type
and spreads until a branch, an access or a division by it consumes it.
-/

namespace PointerSemantics

inductive Value where
  | num (width bits : Nat)
  | ptr (p : Pointer)
  | poison
deriving DecidableEq, Inhabited

namespace Value

/-- The integer of the low `width` bits. -/
def ofBits (width bits : Nat) : Value := num width (Word.truncate width bits)

/-- The integer of a signed number. -/
def ofInt (width : Nat) (i : Int) : Value := num width (Word.ofInt width i)

/-- A one-bit truth value. -/
def ofBool (b : Bool) : Value := num 1 b.toNat

def null : Value := ptr .null

def num? : Value → Option (Nat × Nat)
  | num width bits => some (width, bits)
  | _ => none

def ptr? : Value → Option Pointer
  | ptr p => some p
  | _ => none

/-- An integer read as a signed number. -/
def signed? (v : Value) : Option Int := v.num?.map fun (width, bits) => Word.signed width bits

def isPoison : Value → Bool
  | poison => true
  | _ => false

/-- Poison has every type, an integer that of its width, a pointer every pointer type. -/
def hasType : Value → Ty → Bool
  | poison, _ => true
  | num width _, .int bits => width == bits
  | ptr _, .ptr _ => true
  | _, _ => false

def text : Value → String
  | num width bits => s!"i{width} {bits}"
  | ptr p => s!"ptr {p.text}"
  | poison => "poison"

end Value

end PointerSemantics
