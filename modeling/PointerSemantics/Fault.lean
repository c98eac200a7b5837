import PointerSemantics.Function
import PointerSemantics.Memory.Basic
import PointerSemantics.Value

/-!
# How an execution ends

Undefined behaviour is a behaviour of the program. Being stuck is not: it says that the program or
the state is ill-formed.
-/

namespace PointerSemantics

inductive UndefinedBehavior where
  /-- A poison pointer is accessed or freed -/
  | poisonAddress
  | poisonBranch
  | poisonDivisor
  | divisionByZero
  /-- The least signed number divided by minus one -/
  | divisionOverflow
  /-- Allocation of a poison count -/
  | poisonSize
  | nullDereference
  | useAfterFree (block : BlockId)
  | outOfBounds (block : BlockId) (offset len : Nat)
  /-- No live block covers the accessed addresses -/
  | noBlockAtAddress (addr : Nat)
  /-- The block at the accessed address is not the pointer's owner -/
  | provenanceMismatch (block : BlockId)
  | invalidFree (reason : String)
  | doubleFree (block : BlockId)
  | typeMismatch (reason : String)
  | unreachable
deriving DecidableEq

def UndefinedBehavior.message : UndefinedBehavior → String
  | poisonAddress => "poison used as an address"
  | poisonBranch => "branch on poison"
  | poisonDivisor => "poison divisor"
  | divisionByZero => "division by zero"
  | divisionOverflow => "signed division overflow"
  | poisonSize => "poison allocation size"
  | nullDereference => "null dereference"
  | useAfterFree block => s!"use of freed block {BlockId.text block}"
  | outOfBounds block offset len =>
    s!"out-of-bounds access of {len} bytes at offset {offset} of {BlockId.text block}"
  | noBlockAtAddress addr => s!"no live block at address {hexText addr}"
  | provenanceMismatch block =>
    s!"pointer provenance does not match accessed block {BlockId.text block}"
  | invalidFree reason => s!"invalid free: {reason}"
  | doubleFree block => s!"double free of {BlockId.text block}"
  | typeMismatch reason => s!"type mismatch: {reason}"
  | unreachable => "unreachable executed"

inductive StuckReason where
  | emptyStack
  /-- The call of the innermost frame is not in the call table -/
  | unknownCall
  | unknownFunction (f : FunctionId)
  | invalidPc (pc : Pc)
  | undefinedRegister (r : Reg)
  | unknownLabel (label : String)
  /-- A phi has no value for the edge taken -/
  | missingPhiIncoming (r : Reg)
  | arityMismatch (callee : FunctionId) (expected got : Nat)
  /-- The answer given is not legal -/
  | invalidChoice
  | memory (e : MemError)
deriving DecidableEq

def StuckReason.message : StuckReason → String
  | emptyStack => "empty call stack"
  | unknownCall => "call ID not in the call table"
  | unknownFunction f => s!"unknown function {FunctionId.text f}"
  | invalidPc pc => s!"invalid program counter {pc.text}"
  | undefinedRegister r => s!"undefined register {Reg.text r}"
  | unknownLabel label => s!"unknown label '{label}'"
  | missingPhiIncoming r => s!"phi {Reg.text r} has no incoming value for the taken edge"
  | arityMismatch callee expected got =>
    s!"call to {FunctionId.text callee} with {got} arguments, expected {expected}"
  | invalidChoice => "oracle choice not offered at this point"
  | memory e => s!"memory error: {e.message}"

/-- The end of an execution. -/
inductive Halt where
  /-- The entry function returned -/
  | finished (v : Value)
  | goesWrong (ub : UndefinedBehavior)
  /-- An allocation could not be placed -/
  | outOfMemory
  | stuck (reason : StuckReason)
deriving DecidableEq

/-- A computation that may end the execution. -/
abbrev Exec := Except Halt

namespace Exec

variable {α : Type}

def wrong (ub : UndefinedBehavior) : Exec α := .error (.goesWrong ub)

def stuck (reason : StuckReason) : Exec α := .error (.stuck reason)

def typeMismatch (reason : String) : Exec α := wrong (.typeMismatch reason)

/-- The value, or being stuck for a reason. -/
def orStuck (reason : StuckReason) : Option α → Exec α
  | some a => .ok a
  | none => stuck reason

/-- A refusal by memory leaves the execution stuck. -/
def ofMemory : Except MemError α → Exec α
  | .ok a => .ok a
  | .error e => stuck (.memory e)

end Exec

end PointerSemantics
