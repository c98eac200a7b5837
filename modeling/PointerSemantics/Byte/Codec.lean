import PointerSemantics.Byte
import PointerSemantics.Value

/-!
# Values as bytes

Integers are stored least significant byte first with concrete bits, null as zeros, and any other
pointer as its own symbolic bits. A value that does not have the type it is stored at becomes poison.

Reading is the other direction: one poison bit makes all poison; at an integer type every bit has to
be concrete; at a pointer type the bits are either all concrete, an address, or the bits of one
pointer in order.
-/

namespace PointerSemantics

namespace Value

/-- Bit `i` of a value stored at a type. -/
def bit (v : Value) (ty : Ty) (i : Nat) : Bit :=
  match v, ty with
  | num width bits, .int w => if width = w then .val (bits.testBit i) else .poison
  | ptr .null, .ptr _ => .val false
  | ptr p, .ptr _ => .ptr p i
  | _, _ => .poison

/-- The bytes of a value stored at a type. -/
def encode (v : Value) (ty : Ty) : List Byte :=
  (List.range ty.size).map fun j => Byte.ofFn fun i => v.bit ty (bitsPerByte * j + i)

@[simp] theorem length_encode (v : Value) (ty : Ty) : (v.encode ty).length = ty.size := by
  simp [encode]

/-- Bit `i` of a list belongs to `p`: it is bit `i` of `p`, or a zero behind all bits of a pointer. -/
def isBitOf (p : Pointer) (b : Bit) (i : Nat) : Bool :=
  match b with
  | .ptr q k => q == p && k == i
  | .val false => pointerBits ≤ i
  | _ => false

/-- The pointer whose bits these are, in order and without a gap. -/
def symbolic? (bits : List Bit) : Option Pointer :=
  match bits with
  | .ptr p 0 :: _ => if bits.zipIdx.all fun (b, i) => isBitOf p b i then some p else none
  | _ => none

/-- The value of bytes read at a type. Of a concrete number only the low 64 bits count. -/
def decode (bytes : List Byte) (ty : Ty) : Value :=
  let bits := bytes.flatMap Byte.toList
  if bits.any (· == .poison) then poison
  else
    match ty, concrete? bits with
    | .int width, some n => ofBits width n
    | .int _, none => poison
    | .ptr _, some n =>
      let addr := n % Word.count
      if addr = 0 then null else ptr (.ofAddress addr none)
    | .ptr _, none =>
      match symbolic? bits with
      | some p => ptr p
      | none => poison

end Value

end PointerSemantics
