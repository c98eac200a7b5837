import PointerSemantics.Function

/-!
# Building functions

A builder hands out fresh registers and collects blocks; `build` checks the shape of the result:
labels, terminators, single definitions and types of phis. A refused call leaves the builder as it
was, except that a register it asked for stays used.
-/

namespace PointerSemantics

/-- What is wrong with a function under construction. -/
inductive BuildFault where
  | noOpenBlock
  | alreadyTerminated (label : String)
  | noBlocks
  | duplicateLabel (label : String)
  | noTerminator (label : String)
  | unknownLabel (label : String)
  | invalidPhiType (r : Reg)
  | definedTwice (r : Reg)
deriving DecidableEq

def BuildFault.reason : BuildFault → String
  | noOpenBlock => "no open block"
  | alreadyTerminated label => s!"block '{label}' is already terminated"
  | noBlocks => "function has no blocks"
  | duplicateLabel label => s!"duplicate label '{label}'"
  | noTerminator label => s!"block '{label}' has no terminator"
  | unknownLabel label => s!"branch to unknown label '{label}'"
  | invalidPhiType r => s!"phi {Reg.text r} has invalid type"
  | definedTwice r => s!"{Reg.text r} defined twice"

/-- A fault with the name of its function. -/
structure BuildError where
  function : String
  fault : BuildFault
deriving DecidableEq

def BuildError.message (e : BuildError) : String :=
  s!"Invalid function '{e.function}': {e.fault.reason}"

/-- A block whose parts are still being added. -/
structure OpenBlock where
  label : String
  phis : List Phi
  instructions : List Instruction
  terminator : Option Terminator
deriving DecidableEq

structure Builder where
  name : String
  params : List (Reg × Ty)
  retTy : Ty
  /-- The current block first -/
  blocks : List OpenBlock
  nextReg : Reg
deriving DecidableEq

namespace Builder

def new (name : String) (retTy : Ty) : Builder := ⟨name, [], retTy, [], 0⟩

/-- A register that was not handed out before. -/
def fresh (b : Builder) : Reg × Builder := (b.nextReg, { b with nextReg := b.nextReg + 1 })

/-- Declares the next parameter. -/
def param (b : Builder) (ty : Ty) : Reg × Builder :=
  let (r, b) := b.fresh
  (r, { b with params := b.params ++ [(r, ty)] })

/-- Opens a block; what follows goes into it. -/
def block (b : Builder) (label : String) : Builder :=
  { b with blocks := ⟨label, [], [], none⟩ :: b.blocks }

/-- Changes the current block, which must not be terminated. -/
def modifyCurrent (b : Builder) (f : OpenBlock → OpenBlock) : Except BuildError Builder :=
  match b.blocks with
  | [] => .error ⟨b.name, .noOpenBlock⟩
  | current :: rest =>
    if current.terminator.isSome then .error ⟨b.name, .alreadyTerminated current.label⟩
    else .ok { b with blocks := f current :: rest }

def push (b : Builder) (i : Instruction) : Except BuildError Builder :=
  b.modifyCurrent fun o => { o with instructions := o.instructions ++ [i] }

/-- Adds an instruction that binds the fresh register `r`. -/
def pushDef (b : Builder) (make : Reg → Instruction) : Except BuildError Reg × Builder :=
  let (r, b) := b.fresh
  match b.push (make r) with
  | .ok b => (.ok r, b)
  | .error e => (.error e, b)

/-- Adds a phi that binds a fresh register. -/
def phi (b : Builder) (ty : Ty) (incoming : List (Operand × String)) :
    Except BuildError Reg × Builder :=
  let (r, b) := b.fresh
  match b.modifyCurrent fun o => { o with phis := o.phis ++ [⟨r, ty, incoming⟩] } with
  | .ok b => (.ok r, b)
  | .error e => (.error e, b)

def terminate (b : Builder) (t : Terminator) : Except BuildError Builder :=
  b.modifyCurrent fun o => { o with terminator := some t }

/-! ## Finishing -/

/-- The first of a list of labels that occurs before. -/
def repeatedLabel? (seen : List String) : List String → Option String
  | [] => none
  | l :: rest => if seen.contains l then some l else repeatedLabel? (l :: seen) rest

/-- Adds registers to those defined, each for the first time. -/
def define (defined : List Reg) : List Reg → Except BuildFault (List Reg)
  | [] => .ok defined
  | r :: rest => if defined.contains r then .error (.definedTwice r) else define (r :: defined) rest

/-- Adds the registers of phis to those defined; their types must be valid. -/
def definePhis (defined : List Reg) : List Phi → Except BuildFault (List Reg)
  | [] => .ok defined
  | p :: rest =>
    if !p.ty.isValid then .error (.invalidPhiType p.dst)
    else if defined.contains p.dst then .error (.definedTwice p.dst)
    else definePhis (p.dst :: defined) rest

/-- Finishes a block among blocks with the given labels. -/
def finishBlock (labels : List String) (defined : List Reg) (o : OpenBlock) :
    Except BuildFault (BasicBlock × List Reg) := do
  match o.terminator with
  | none => throw (.noTerminator o.label)
  | some terminator =>
    match terminator.successors.find? fun l => !labels.contains l with
    | some l => throw (.unknownLabel l)
    | none =>
      let defined ← definePhis defined o.phis
      let defined ← define defined (o.instructions.filterMap Instruction.def?)
      return (⟨o.label, o.phis, o.instructions, terminator⟩, defined)

def finishBlocks (labels : List String) (defined : List Reg) :
    List OpenBlock → Except BuildFault (List BasicBlock)
  | [] => .ok []
  | o :: rest => do
    let (b, defined) ← finishBlock labels defined o
    return b :: (← finishBlocks labels defined rest)

/-- The finished function. -/
def build (b : Builder) : Except BuildError FunctionDef :=
  let result : Except BuildFault FunctionDef := do
    let blocks := b.blocks.reverse
    let labels := blocks.map (·.label)
    if blocks.isEmpty then throw .noBlocks
    match repeatedLabel? [] labels with
    | some l => throw (.duplicateLabel l)
    | none =>
      let blocks ← finishBlocks labels (b.params.map (·.1)) blocks
      return ⟨b.name, b.params, b.retTy, blocks⟩
  result.mapError fun fault => ⟨b.name, fault⟩

end Builder

end PointerSemantics
