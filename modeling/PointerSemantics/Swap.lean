import PointerSemantics.Function

/-!
# Exchanging neighbouring instructions

`first; second` may become `second; first` if neither needs what the other binds, the pair is
well-formed, and the kinds commute in this order. The table of kinds is not symmetric: what is allowed
to move ahead of a `free` is not allowed to move behind it. A division never moves ahead of an
`alloca`, which can run out of memory without a null result.
-/

namespace PointerSemantics

namespace Category

/-- Kinds that neither look at memory nor change it. -/
def isPure : Category → Bool
  | binOp | icmpInt | select | gep | psub | ptrToInt | bitcast => true
  | _ => false

def isAllocation : Category → Bool
  | malloc | alloca => true
  | _ => false

/-- May the first kind move behind the second? -/
def commutes (first second : Category) : Bool :=
  match first, second with
  | call, _ | _, call => false
  | a, b =>
    if a.isPure || b.isPure then true
    else
      match a, b with
      | intToPtr, b => !b.isAllocation && b != free
      | a, intToPtr => !a.isAllocation && a != free
      | icmpPtr, free => false
      | icmpPtr, _ | _, icmpPtr => true
      | load, load => true
      | load, store | store, load | store, store => false
      | load, b | store, b => b.isAllocation
      | free, load | free, store | free, free => true
      | _, _ => false

end Category

inductive SwapVerdict where
  | valid
  /-- The second instruction reads what the first binds -/
  | dataDependency
  /-- The pair binds a register twice or reads its own result -/
  | illFormed
  | notCommutable (first second : Category)
  /-- The second instruction may go wrong and would overtake an `alloca` -/
  | mayTrap
deriving DecidableEq

namespace SwapVerdict

def isValid : SwapVerdict → Bool
  | valid => true
  | _ => false

def text : SwapVerdict → String
  | valid => "valid"
  | dataDependency => "data dependency"
  | illFormed => "ill-formed pair"
  | notCommutable first second =>
    s!"{first.name} does not commute with a following {second.name}"
  | mayTrap => "trapping instruction ahead of alloca"

end SwapVerdict

namespace Instruction

/-- The instruction reads the register, if there is one. -/
def reads (i : Instruction) (r : Option Reg) : Bool := r.any (i.uses.contains ·)

/-- The second instruction reads what the first binds. -/
def hasDataDependency (first second : Instruction) : Bool := second.reads first.def?

/-- The pair binds two registers, neither instruction reads its own, and the first does not read
what the second binds. -/
def pairWellFormed (first second : Instruction) : Bool :=
  !(first.def?.isSome && first.def? == second.def?) && !first.reads first.def? &&
    !second.reads second.def? && !first.reads second.def?

/-- The instruction can go wrong on operands of the right types without touching memory. -/
def mayTrap : Instruction → Bool
  | binOp _ op .. => op.isDivision
  | _ => false

/-- May `first; second` become `second; first`? -/
def checkSwap (first second : Instruction) : SwapVerdict :=
  if !pairWellFormed first second then .illFormed
  else if hasDataDependency first second then .dataDependency
  else if !first.category.commutes second.category then
    .notCommutable first.category second.category
  else if first.category = .alloca ∧ second.mayTrap then .mayTrap
  else .valid

end Instruction

namespace FunctionDef

/-- The places of neighbours that may be exchanged. -/
def reorderablePairs (f : FunctionDef) : List Pc :=
  f.blocks.zipIdx.flatMap fun (b, k) =>
    (b.instructions.zip b.instructions.tail).zipIdx.filterMap fun ((i, j), n) =>
      if (i.checkSwap j).isValid then some ⟨k, n⟩ else none

/-- The function with the instruction at a place and the next one exchanged. -/
def swapAt? (f : FunctionDef) (pc : Pc) : Option FunctionDef := do
  let b ← f.blocks[pc.block]?
  let i ← b.instructions[pc.inst]?
  let j ← b.instructions[pc.inst + 1]?
  let instructions := (b.instructions.set pc.inst j).set (pc.inst + 1) i
  return { f with blocks := f.blocks.set pc.block { b with instructions } }

end FunctionDef

end PointerSemantics
