import PointerSemantics.Effect
import PointerSemantics.State

/-!
# One step

`Config.step` executes the instruction or terminator the innermost frame is at. The result is a
successor or the end of the execution, possibly behind one question.

Instructions other than calls work on memory and the registers of one frame only; `Config.advance`
puts their effect into the state. Calls and terminators ask no question.
-/

namespace PointerSemantics

/-! ## Moving through the program -/

namespace Frame

/-- Binds the result of an instruction and goes to the next place. -/
def advance (f : Frame) (i : Instruction) (e : Effect) : Frame :=
  { f with
    pc := f.pc.next
    registers :=
      match i.def?, e.value with
      | some dst, some v => f.registers.insert dst v
      | _, _ => f.registers
    stackBlocks := f.stackBlocks ++ e.stackBlock.toList }

/-- The values of the phis of a block entered from `source`, each evaluated before any is bound. -/
def phiValues (f : Frame) (source : String) (phis : List Phi) : Exec (List (Reg × Value)) :=
  phis.mapM fun phi => do
    match phi.incoming.find? (·.2 == source) with
    | none => Exec.stuck (.missingPhiIncoming phi.dst)
    | some (op, _) =>
      let v ← op.eval f.registers
      if v.hasType phi.ty then return (phi.dst, v)
      else Exec.typeMismatch s!"phi {Reg.text phi.dst} receives {v.text}"

/-- Goes to the start of the block with a label. -/
def jump (f : Frame) (fn : FunctionDef) (label : String) : Exec Frame := do
  match fn.blockIndex? label with
  | none => Exec.stuck (.unknownLabel label)
  | some index =>
    match fn.blocks[f.pc.block]?, fn.blocks[index]? with
    | some source, some target =>
      let values ← f.phiValues source.label target.phis
      return { f with pc := ⟨index, 0⟩, registers := f.registers.insertMany values }
    | _, _ => Exec.stuck (.invalidPc f.pc)

end Frame

namespace Config

/-- Puts what an instruction of the innermost frame did into the state. -/
def advance (c : Config) (f : Frame) (rest : List Frame) (i : Instruction) (e : Effect) : Config :=
  { c with memory := e.memory, stack := f.advance i e :: rest }

/-- The registers of a function called with arguments. -/
def bindArguments (regs : Table Value) (params : List (Reg × Ty)) (args : List Operand) :
    Exec (Table Value) := do
  let bound ← (params.zip args).mapM fun ((r, ty), arg) => do
    let v ← arg.eval regs
    if v.hasType ty then return (r, v)
    else Exec.typeMismatch s!"argument {v.text} is not {ty.text}"
  return Table.ofList bound

/-- Starts a function on top of the innermost frame `f`. -/
def call (p : Program) (c : Config) (f : Frame) (rest : List Frame) (dst : Option Reg)
    (callee : FunctionId) (args : List Operand) : Exec Config := do
  let fn ← Exec.orStuck (.unknownFunction callee) (p callee)
  if fn.params.length ≠ args.length then
    Exec.stuck (.arityMismatch callee fn.params.length args.length)
  else
    let registers ← bindArguments f.registers fn.params args
    return { c with
      stack := ⟨c.nextCallId, .entry, registers, dst, []⟩ :: { f with pc := f.pc.next } :: rest
      callTable := c.callTable.insert c.nextCallId callee
      nextCallId := c.nextCallId + 1 }

/-- Ends the innermost frame `f`: its stack blocks die and the caller takes the value. -/
def ret (c : Config) (f : Frame) (rest : List Frame) (v : Value) : Exec Config := do
  let memory ← Exec.ofMemory (f.stackBlocks.foldlM Memory.free c.memory)
  match rest with
  | [] => .error (.finished v)
  | caller :: rest =>
    let registers :=
      match f.retDest with
      | some dst => caller.registers.insert dst v
      | none => caller.registers
    return { c with
      memory
      stack := { caller with registers } :: rest
      callTable := c.callTable.erase f.callId }

/-- Executes the terminator of a block. -/
def terminate (c : Config) (f : Frame) (rest : List Frame) (fn : FunctionDef) (t : Terminator) :
    Exec Config :=
  match t with
  | .br label => do return { c with stack := (← f.jump fn label) :: rest }
  | .condBr cond onTrue onFalse => do
    match ← cond.eval f.registers with
    | .num 1 bits =>
      return { c with stack := (← f.jump fn (if bits = 1 then onTrue else onFalse)) :: rest }
    | .poison => Exec.wrong .poisonBranch
    | v => Exec.typeMismatch s!"branch on {v.text}"
  | .ret val => do
    let v ← val.eval f.registers
    if v.hasType fn.retTy then c.ret f rest v
    else Exec.typeMismatch s!"return of {v.text} as {fn.retTy.text}"
  | .unreachable => Exec.wrong .unreachable

/-- The function and the code that a frame is at. -/
def fetch (p : Program) (c : Config) (f : Frame) : Exec (FunctionDef × Code) := do
  let id ← Exec.orStuck .unknownCall (c.callTable.find? f.callId)
  let fn ← Exec.orStuck (.unknownFunction id) (p id)
  let code ← Exec.orStuck (.invalidPc f.pc) (fn.codeAt? f.pc)
  return (fn, code)

/-- Executes what the innermost frame is at. -/
def step (p : Program) (c : Config) : Ask (Exec Config) :=
  match c.stack with
  | [] => .done (Exec.stuck .emptyStack)
  | f :: rest =>
    .after (c.fetch p f) fun
      | (_, .instruction (.call dst callee args)) => .done (c.call p f rest dst callee args)
      | (_, .instruction i) =>
        (i.effect c.memory f.registers).map fun e => e.map fun e => c.advance f rest i e
      | (fn, .terminator t) => .done (c.terminate f rest fn t)

/-- Every legal result of a step, one for each legal answer to its question. -/
def successors (p : Program) (c : Config) : List (Exec Config) := (c.step p).results

end Config

end PointerSemantics
