import PointerSemantics.Choice
import PointerSemantics.Evaluation
import PointerSemantics.Memory.Placement

/-!
# Effects of instructions

What an instruction other than a call does is an `Effect`: the memory behind it, the value for its
destination, and a block for the frame to release. Allocation and undecided comparisons ask; an
answer that does not suit the question leaves the execution stuck.
-/

namespace PointerSemantics

/-! ## Allocation -/

/-- The bytes of `count` elements; `none` if they are no 64-bit word. -/
def allocSize (regs : Table Value) (ty : Ty) (count : Operand) : Exec (Option Nat) := do
  match ← count.eval regs with
  | .num _ bits => return if bits * ty.size < Word.count then some (bits * ty.size) else none
  | .poison => Exec.wrong .poisonSize
  | v => Exec.typeMismatch s!"allocation count {v.text}"

namespace Memory

/-- The places offered for a block; a size that is no word has none. -/
def candidatesFor (m : Memory) : Option Nat → List Nat
  | some size => m.proposeCandidates size m.config.sysalign m.config.maxCandidates
  | none => []

/-- Allocates a block at the picked one of the places offered. -/
def place (m : Memory) (kind : BlockKind) (size : Option Nat) (candidates : List Nat) (pick : Nat) :
    Exec (BlockId × Memory) :=
  match size, candidates with
  | none, _ | _, [] => .error .outOfMemory
  | some size, candidates =>
    if candidates.length ≤ pick then Exec.stuck .invalidChoice
    else
      Exec.ofMemory <| m.allocate
        { kind, size, align := m.config.sysalign, init := none, candidates, pick }

end Memory

/-! ## Effects -/

/-- What an instruction other than a call does. -/
structure Effect where
  memory : Memory
  /-- Bound to the destination -/
  value : Option Value
  /-- A block that the frame releases when it returns -/
  stackBlock : Option BlockId

namespace Effect

/-- Binds a value and leaves memory alone. -/
def binding (m : Memory) (v : Value) : Effect := ⟨m, some v, none⟩

/-- Changes memory and binds nothing. -/
def change (m : Memory) : Effect := ⟨m, none, none⟩

end Effect

/-- Goes on with a result unless the execution has ended. -/
def Ask.after {α β : Type} (x : Exec α) (next : α → Ask (Exec β)) : Ask (Exec β) :=
  match x with
  | .ok a => next a
  | .error h => .done (.error h)

/-- Allocates on the heap, which may fail with null. Nothing is asked for no bytes. -/
def mallocEffect (m : Memory) (size : Option Nat) : Ask (Exec Effect) :=
  if size = some 0 then .done (.ok (.binding m .null))
  else
    let candidates := m.candidatesFor size
    .ask (.malloc (size.getD Word.max) candidates) fun
      | .null => .ok (.binding m .null)
      | .place i => do
        let (block, m) ← m.place .heap size candidates i
        return .binding m (.ptr (.logical block 0))
      | .compare _ => Exec.stuck .invalidChoice

/-- Allocates on the stack, at least one byte. -/
def allocaEffect (m : Memory) (size : Option Nat) : Ask (Exec Effect) :=
  let size := size.map (max · 1)
  let candidates := m.candidatesFor size
  .ask (.alloca (size.getD Word.max) candidates) fun
    | .place i => do
      let (block, m) ← m.place .stack size candidates i
      return ⟨m, some (.ptr (.logical block 0)), some block⟩
    | .null | .compare _ => Exec.stuck .invalidChoice

/-- What an instruction does. Calls are left to `Config.call`. -/
def Instruction.effect (m : Memory) (regs : Table Value) : Instruction → Ask (Exec Effect)
  | icmp _ pred ty lhs rhs =>
    let result : Exec (Option Value) := do
      let l ← lhs.eval regs
      let r ← rhs.eval regs
      comparison m pred ty l r
    .after result fun
      | some v => .done (.ok (.binding m v))
      | none => .ask (.pointerCompare pred) fun
        | .compare b => .ok (.binding m (.ofBool b))
        | .null | .place _ => Exec.stuck .invalidChoice
  | store ty val ptr => .done do
    let v ← val.eval regs
    if !v.hasType ty then Exec.typeMismatch s!"store of {v.text} as {ty.text}"
    else
      let p ← (← ptr.eval regs).addressOperand
      let (block, offset) ← m.resolve p ty.size
      return .change (← Exec.ofMemory (m.write block offset (v.encode ty)))
  | malloc _ ty count => .after (allocSize regs ty count) fun size => mallocEffect m size
  | alloca _ ty count => .after (allocSize regs ty count) fun size => allocaEffect m size
  | free ptr => .done do
    let p ← (← ptr.eval regs).addressOperand
    return .change (← m.freePointer p)
  | i => .done ((i.compute m regs).map fun v => .binding m v)

end PointerSemantics
