import PointerSemantics.Fault
import PointerSemantics.Memory.Access

/-!
# What a pointer may access

An access goes to a block and an offset. A logical pointer names them. A physical pointer goes to the
live block at its address, which has to be its owner, if it has one, and to enclose every address
that in-bounds moves passed through.
-/

namespace PointerSemantics

namespace Memory

/-- The block and offset that an access of `len` bytes through a pointer goes to. -/
def resolve (m : Memory) (p : Pointer) (len : Nat) : Exec (BlockId × Nat) :=
  match p with
  | .null => Exec.wrong .nullDereference
  | .logical block offset =>
    match m.get? block with
    | none => Exec.stuck (.memory (.noSuchBlock block))
    | some b =>
      if !b.isAlive then Exec.wrong (.useAfterFree block)
      else if !b.accessInBounds offset len then Exec.wrong (.outOfBounds block offset len)
      else .ok (block, offset)
  | .physical addr visited owner =>
    match m.liveBlockContaining? addr len with
    | none => Exec.wrong (.noBlockAtAddress addr)
    | some block =>
      if owner.any (· ≠ block) then Exec.wrong (.provenanceMismatch block)
      else
        match m.get? block with
        | none => Exec.stuck (.memory (.noSuchBlock block))
        | some b =>
          let offset := addr - b.base
          if visited.toList.any fun a => a < b.base || b.base + b.size < a then
            Exec.wrong (.outOfBounds block offset len)
          else .ok (block, offset)

/-- Releases the block that a pointer from `malloc` points to. -/
def freePointer (m : Memory) (p : Pointer) : Exec Memory :=
  match p with
  | .null => Exec.wrong (.invalidFree "null pointer")
  | .physical _ _ _ => Exec.wrong (.invalidFree "physical pointer")
  | .logical block offset =>
    match m.get? block with
    | none => Exec.wrong (.invalidFree "unknown block")
    | some b =>
      if !b.isAlive then Exec.wrong (.doubleFree block)
      else if offset ≠ 0 then Exec.wrong (.invalidFree "interior pointer")
      else if b.kind = .stack then Exec.wrong (.invalidFree "stack block")
      else Exec.ofMemory (m.free block)

end Memory

end PointerSemantics
