import PointerSemantics.Memory.Invariant
import PointerSemantics.State

/-!
# Well-formed states

A state is well-formed when memory satisfies its invariant, every frame runs a known function at a
valid place, frames and call table belong together, and every pointer in a register or in memory stays
inside the address space and names blocks that exist.
-/

namespace PointerSemantics

/-- The pointer lies in the address space and names existing blocks. -/
def Memory.pointerWf (m : Memory) : Pointer → Bool
  | .null => true
  | .logical block offset => offset < m.config.memsz && (m.get? block).isSome
  | .physical addr visited owner =>
    addr < m.config.memsz && visited.toList.all (· < m.config.memsz) &&
      owner.all fun b => (m.get? b).isSome

/-- An integer has a valid width and no bits beyond it; a pointer is well-formed. -/
def Memory.valueWf (m : Memory) : Value → Bool
  | .num width bits => 1 ≤ width && width ≤ maxIntBits && bits < Word.modulus width
  | .ptr p => m.pointerWf p
  | .poison => true

/-- The stored bit is well-formed. -/
def Memory.bitWf (m : Memory) : Bit → Bool
  | .ptr p index => m.pointerWf p && index < pointerBits
  | .val _ | .poison => true

/-- What is wrong with a state. -/
inductive ConfigError where
  | memory (e : MemError)
  | emptyStack
  | repeatedCall (c : CallId)
  | callNotBelowNext (c : CallId)
  | callNotInTable (c : CallId)
  | unknownFunction (f : FunctionId)
  | invalidPc (pc : Pc) (function : String)
  | illFormedRegister (r : Reg)
  | notLiveStackBlock (b : BlockId)
  | callTableMismatch
  | illFormedStoredPointer (b : BlockId)
deriving DecidableEq

def ConfigError.message : ConfigError → String
  | memory e => e.message
  | unknownFunction f => s!"Unknown function: {FunctionId.text f}"
  | emptyStack => "Ill-formed configuration: empty call stack"
  | repeatedCall c => s!"Ill-formed configuration: {CallId.text c} appears twice"
  | callNotBelowNext c => s!"Ill-formed configuration: {CallId.text c} is not below the next call id"
  | callNotInTable c => s!"Ill-formed configuration: {CallId.text c} not in call table"
  | invalidPc pc function => s!"Ill-formed configuration: {pc.text} is not a valid pc of {function}"
  | illFormedRegister r => s!"Ill-formed configuration: {Reg.text r} holds an ill-formed value"
  | notLiveStackBlock b => s!"Ill-formed configuration: {BlockId.text b} is not a live stack block"
  | callTableMismatch => "Ill-formed configuration: call table does not match the stack"
  | illFormedStoredPointer b =>
    s!"Ill-formed configuration: {BlockId.text b} stores an ill-formed pointer"

namespace Config

/-- The block is on the stack and alive. -/
def ownsAsStack (m : Memory) (b : BlockId) : Bool :=
  (m.get? b).any fun b => b.kind == .stack && b.isAlive

/-- Checks one frame; `outer` are the calls of the frames around it. -/
def checkFrame (p : Program) (c : Config) (outer : List CallId) (f : Frame) :
    Except ConfigError Unit := do
  if outer.contains f.callId then throw (.repeatedCall f.callId)
  if c.nextCallId ≤ f.callId then throw (.callNotBelowNext f.callId)
  match c.callTable.find? f.callId with
  | none => throw (.callNotInTable f.callId)
  | some id =>
    match p id with
    | none => throw (.unknownFunction id)
    | some fn =>
      if !fn.isValidPc f.pc then throw (.invalidPc f.pc fn.name)
      match f.registers.entries.find? fun (_, v) => !c.memory.valueWf v with
      | some (r, _) => throw (.illFormedRegister r)
      | none =>
        match f.stackBlocks.find? fun b => !ownsAsStack c.memory b with
        | some b => throw (.notLiveStackBlock b)
        | none => return ()

/-- Checks frames, the outermost first; `outer` are the calls of those already checked. -/
def checkFrames (p : Program) (c : Config) (outer : List CallId) : List Frame →
    Except ConfigError Unit
  | [] => .ok ()
  | f :: rest => do
    c.checkFrame p outer f
    c.checkFrames p (f.callId :: outer) rest

/-- The calls in the table are those of the frames. -/
def callTableMatches (c : Config) : Bool :=
  c.callTable.keys.all (c.stack.map (·.callId)).contains &&
    (c.stack.map (·.callId)).all c.callTable.keys.contains

/-- The first block that stores an ill-formed pointer. -/
def badBlock? (m : Memory) : Option Block :=
  m.blocks.values.find? fun b => b.bytes.any fun byte => byte.toList.any (!m.bitWf ·)

/-- The state is well-formed. -/
def check (p : Program) (c : Config) : Except ConfigError Unit := do
  match c.memory.checkInvariants with
  | .error e => throw (.memory e)
  | .ok () =>
    if c.stack.isEmpty then throw .emptyStack
    c.checkFrames p [] c.stack.reverse
    if !c.callTableMatches then throw .callTableMismatch
    match badBlock? c.memory with
    | some b => throw (.illFormedStoredPointer b.id)
    | none => return ()

end Config

end PointerSemantics
