import PointerSemantics.Memory.Basic

/-!
# The invariant of memory

Every block stands under its own number, below the next number, has bytes and a base among its twin
addresses, and lived in the past; a live block reserves ranges of the address space only, and no two
reserved ranges of live blocks overlap.
-/

namespace PointerSemantics

namespace Memory

/-- What is wrong with the block under a number, the first of all reasons. -/
def blockFault? (m : Memory) (id : BlockId) (b : Block) : Option String :=
  let name := BlockId.text id
  if id ≠ b.id then some s!"block {BlockId.text b.id} stored under {name}"
  else if m.freshId ≤ id then some s!"{name} is not below fresh id {m.freshId}"
  else if b.size = 0 then some s!"{name} has an empty range"
  else if b.bytes.length ≠ b.size then
    some s!"{name} holds {b.bytes.length} bytes for size {b.size}"
  else if b.base ∉ b.candidates then
    some s!"{name} base {hexText b.base} is not a reserved twin"
  else
    match if b.isAlive then b.reservedRanges.find? (!m.fits · b.align) else none with
    | some r => some s!"{name} reserves [{hexText r.start}, {hexText r.stop}) outside memory"
    | none =>
      if m.clock ≤ b.born || b.died.any (fun d => m.clock ≤ d || d < b.born) then
        some s!"{name} has inconsistent lifetime"
      else none

/-- The invariant holds. -/
def checkInvariants (m : Memory) : Except MemError Unit :=
  match m.blocks.entries.findSome? fun (id, b) => m.blockFault? id b with
  | some reason => .error (.invariantViolated reason)
  | none =>
    if AddrRange.allDisjoint m.reservedRanges then .ok ()
    else .error (.invariantViolated "live blocks overlap")

end Memory

end PointerSemantics
