import PointerSemantics.Block
import PointerSemantics.Options
import PointerSemantics.Table

/-!
# Memory

All blocks ever allocated, with a logical clock and the number of the next block. Blocks are never
removed: a release only records the time, so a stale pointer can always be traced to its block.
-/

namespace PointerSemantics

/-- Why an operation on memory was refused. -/
inductive MemError where
  /-- No candidate keeps the live blocks apart -/
  | outOfMemory (size : Nat)
  | emptyRange
  | invalidAlignment (align : Nat)
  | initSizeMismatch (size got : Nat)
  /-- The picked index is beyond the viable candidates -/
  | invalidPick (pick available : Nat)
  | noSuchBlock (block : BlockId)
  | deadBlock (block : BlockId)
  | outOfBounds (block : BlockId) (offset len size : Nat)
  | invariantViolated (reason : String)
deriving DecidableEq

def MemError.message : MemError → String
  | outOfMemory size => s!"Out of memory: no disjoint placement for {size} bytes"
  | emptyRange => "Allocation of zero bytes"
  | invalidAlignment align => s!"Invalid alignment: {align}"
  | initSizeMismatch size got => s!"Initial contents have {got} bytes, block has {size}"
  | invalidPick pick available =>
    s!"Placement {pick} out of range ({available} viable candidates)"
  | noSuchBlock block => s!"No such block: {BlockId.text block}"
  | deadBlock block => s!"Block {BlockId.text block} has been freed"
  | outOfBounds block offset len size =>
    s!"Access of {len} bytes at offset {offset} exceeds block {BlockId.text block} of size {size}"
  | invariantViolated reason => s!"Memory invariant violated: {reason}"

structure Memory where
  blocks : Table Block
  clock : Tick
  freshId : BlockId
  config : MemConfig
deriving DecidableEq

namespace Memory

/-- The memory without blocks. -/
def empty (config : MemConfig) : Memory := ⟨.empty, 0, 0, config⟩

instance : Inhabited Memory := ⟨empty default⟩

/-- An empty memory over a usable address space. -/
def new (config : MemConfig) : Except OptionsError Memory := do
  config.validate
  return empty config

/-- A block by its number, alive or dead. -/
def get? (m : Memory) (id : BlockId) : Option Block := m.blocks.find? id

def liveBlocks (m : Memory) : List Block := m.blocks.values.filter Block.isAlive

/-- The ranges that live blocks reserve. -/
def reservedRanges (m : Memory) : List AddrRange := m.liveBlocks.flatMap Block.reservedRanges

/-- A range is aligned and lies between address zero and the end of the address space. -/
def fits (m : Memory) (r : AddrRange) (align : Nat) : Bool :=
  0 < r.start && r.start % align == 0 && r.stop ≤ m.config.memsz

/-- Equality but for the clock and the times in blocks. -/
def eqModuloClock (m n : Memory) : Bool :=
  m.config == n.config && m.freshId == n.freshId && m.blocks.size == n.blocks.size &&
    (m.blocks.values.zip n.blocks.values).all fun (a, b) => a.eqModuloClock b

end Memory

end PointerSemantics
