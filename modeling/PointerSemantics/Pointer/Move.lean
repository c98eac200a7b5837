import PointerSemantics.Pointer.Compare
import PointerSemantics.Value

/-!
# Moving pointers and casting them

Moves are in bytes and may be negative. A plain move wraps around the address space. An in-bounds move
must stay in the block of a logical pointer; for a physical pointer the addresses it joins are kept,
and an access checks them.

Where a cast, a load or a move of null comes to address zero, the pointer is null. A physical pointer that is
moved there stays physical.
-/

namespace PointerSemantics

namespace Memory

/-- A number as an address. -/
def wrap (m : Memory) (i : Int) : Nat := (i % (m.config.memsz : Int)).toNat

/-- The pointer `delta` bytes further, or poison. -/
def movePointer (m : Memory) (p : Pointer) (delta : Int) (inbounds : Bool) : Value :=
  match p with
  | .null =>
    if delta = 0 then .null
    else if inbounds then .poison
    else if m.wrap delta = 0 then .null
    else .ptr (.ofAddress (m.wrap delta) none)
  | .logical block offset =>
    let target := (offset : Int) + delta
    if !inbounds then .ptr (.logical block (m.wrap target))
    else
      match m.get? block with
      | none => .poison
      | some b =>
        if offset ≤ b.size ∧ 0 ≤ target ∧ target ≤ b.size then .ptr (.logical block target.toNat)
        else .poison
  | .physical addr visited owner =>
    let target := (addr : Int) + delta
    if !inbounds then .ptr (.physical (m.wrap target) visited owner)
    else if 0 ≤ target ∧ target < m.config.memsz then
      .ptr (.physical target.toNat ((visited.insert addr).insert target.toNat) owner)
    else .poison

/-- The distance of two pointers in elements of a size, as an integer as wide as a pointer. Pointers
into different blocks have none, nor have those that are no whole number of elements apart. -/
def pointerDistance (m : Memory) (l r : Pointer) (elemSize : Nat) : Value :=
  let bytes? : Option Int :=
    match l, r with
    | .logical b₁ o₁, .logical b₂ o₂ => if b₁ = b₂ then some ((o₁ : Int) - o₂) else none
    | _, _ =>
      match m.address l, m.address r with
      | .ok a, .ok b => some ((a : Int) - b)
      | _, _ => none
  match bytes? with
  | none => .poison
  | some bytes =>
    let elem : Int := (max elemSize 1 : Nat)
    if bytes.tmod elem = 0 then .ofInt pointerBits (bytes.tdiv elem) else .poison

/-- The pointer an integer stands for. The live block at the address becomes its owner. -/
def pointerOfInt (m : Memory) (bits : Nat) : Value :=
  let addr := bits % m.config.memsz
  if addr = 0 then .null else .ptr (.ofAddress addr (m.liveBlockContaining? addr 1))

/-- The pointer that concrete bytes in memory stand for. Its owner stays open. -/
def pointerOfBytes (m : Memory) (bits : Nat) : Value :=
  let addr := bits % m.config.memsz
  if addr = 0 then .null else .ptr (.ofAddress addr none)

end Memory

end PointerSemantics
