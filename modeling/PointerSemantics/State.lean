import PointerSemantics.Fault
import PointerSemantics.Memory.Basic
import PointerSemantics.Program

/-!
# Machine states

A configuration is a memory with a stack of frames. Every call gets a number of its own, and the call
table says which function runs in it.
-/

namespace PointerSemantics

/-- The number of one activation of a function. -/
abbrev CallId := Nat

def CallId.text (c : CallId) : String := s!"call#{c}"

/-- One activation record. -/
structure Frame where
  callId : CallId
  /-- What is executed next -/
  pc : Pc
  registers : Table Value
  /-- The register of the caller that takes the returned value -/
  retDest : Option Reg
  /-- Blocks that die with the frame, the oldest first -/
  stackBlocks : List BlockId
deriving DecidableEq, Inhabited

structure Config where
  memory : Memory
  /-- The innermost frame first -/
  stack : List Frame
  /-- The function of every call under way -/
  callTable : Table FunctionId
  nextCallId : CallId
deriving DecidableEq, Inhabited

/-- Why a program cannot be started. -/
inductive EntryError where
  | options (e : OptionsError)
  | unknownFunction (f : FunctionId)
  | arityMismatch (f : FunctionId) (expected got : Nat)
  | argumentType (arg : Value) (r : Reg) (ty : Ty)
deriving DecidableEq

def EntryError.message : EntryError → String
  | options e => e.message
  | unknownFunction f => s!"Unknown function: {FunctionId.text f}"
  | arityMismatch f expected got =>
    s!"Function {FunctionId.text f} expects {expected} arguments, got {got}"
  | argumentType arg r ty =>
    s!"Ill-formed configuration: argument {arg.text} for {Reg.text r} is not of type {ty.text}"

namespace Config

/-- The start of a function with arguments on a given memory. -/
def withMemory (p : Program) (entry : FunctionId) (args : List Value) (memory : Memory) :
    Except EntryError Config :=
  match p entry with
  | none => .error (.unknownFunction entry)
  | some f =>
    if f.params.length ≠ args.length then
      .error (.arityMismatch entry f.params.length args.length)
    else
      match (f.params.zip args).find? fun ((_, ty), arg) => !arg.hasType ty with
      | some ((r, ty), arg) => .error (.argumentType arg r ty)
      | none =>
        let registers := Table.ofList ((f.params.map (·.1)).zip args)
        .ok
          { memory
            stack := [⟨0, .entry, registers, none, []⟩]
            callTable := Table.empty.insert 0 entry
            nextCallId := 1 }

/-- The start of a function with arguments on an empty memory. -/
def initial (p : Program) (entry : FunctionId) (args : List Value) (config : MemConfig) :
    Except EntryError Config :=
  match Memory.new config with
  | .error e => .error (.options e)
  | .ok memory => withMemory p entry args memory

/-- The innermost frame. -/
def top? (c : Config) : Option Frame := c.stack.head?

/-- The place the innermost frame is at. -/
def pc? (c : Config) : Option Pc := c.top?.map (·.pc)

/-- The function of the innermost frame. -/
def currentFunction? (c : Config) : Option FunctionId :=
  c.top?.bind fun f => c.callTable.find? f.callId

/-- Equality of frames but for the place. -/
def frameEqModuloPc (f g : Frame) : Bool :=
  f.callId == g.callId && f.registers == g.registers && f.retDest == g.retDest &&
    f.stackBlocks == g.stackBlocks

/-- Equality but for places and clock ticks. -/
def eqModuloPc (c d : Config) : Bool :=
  c.memory.eqModuloClock d.memory && c.callTable == d.callTable &&
    c.nextCallId == d.nextCallId && c.stack.length == d.stack.length &&
    (c.stack.zip d.stack).all fun (f, g) => frameEqModuloPc f g

end Config

end PointerSemantics
