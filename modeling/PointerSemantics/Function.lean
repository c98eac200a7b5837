import PointerSemantics.Instruction

/-!
# Functions and program counters

A function is a list of basic blocks, the first being the entry. A program counter names a block and
a place in it; the place after the last instruction is the block's terminator.
-/

namespace PointerSemantics

/-- A register that takes its value from the edge over which its block is entered. -/
structure Phi where
  dst : Reg
  ty : Ty
  /-- Values with the labels of the blocks they come from -/
  incoming : List (Operand × String)
deriving DecidableEq, Inhabited

inductive Terminator where
  | br (label : String)
  | condBr (cond : Operand) (onTrue onFalse : String)
  | ret (val : Operand)
  /-- Undefined behaviour when reached -/
  | unreachable
deriving DecidableEq, Inhabited

namespace Terminator

/-- The registers the terminator reads. -/
def uses : Terminator → List Reg
  | condBr cond _ _ => cond.reg?.toList
  | ret val => val.reg?.toList
  | br _ | unreachable => []

/-- The labels the terminator may jump to. -/
def successors : Terminator → List String
  | br label => [label]
  | condBr _ onTrue onFalse => [onTrue, onFalse]
  | ret _ | unreachable => []

def text : Terminator → String
  | br label => s!"br {label}"
  | condBr cond onTrue onFalse => s!"br {cond.text}, {onTrue}, {onFalse}"
  | ret val => s!"ret {val.text}"
  | unreachable => "unreachable"

end Terminator

structure BasicBlock where
  label : String
  /-- Evaluated together on entry -/
  phis : List Phi
  instructions : List Instruction
  terminator : Terminator
deriving DecidableEq, Inhabited

structure FunctionDef where
  name : String
  /-- Bound in order by a call -/
  params : List (Reg × Ty)
  retTy : Ty
  blocks : List BasicBlock
deriving DecidableEq, Inhabited

/-- A place in a function: the index of a block and of an instruction in it. -/
structure Pc where
  block : Nat
  inst : Nat
deriving DecidableEq, Inhabited

namespace Pc

/-- The first place of the entry block. -/
def entry : Pc := ⟨0, 0⟩

/-- The place behind, in the same block. -/
def next (pc : Pc) : Pc := ⟨pc.block, pc.inst + 1⟩

def text (pc : Pc) : String := s!"bb{pc.block}:{pc.inst}"

end Pc

/-- What a program counter points at. -/
inductive Code where
  | instruction (i : Instruction)
  | terminator (t : Terminator)
deriving DecidableEq

def Code.text : Code → String
  | instruction i => i.text
  | terminator t => t.text

namespace FunctionDef

def blockIndex? (f : FunctionDef) (label : String) : Option Nat :=
  f.blocks.findIdx? (·.label == label)

/-- The instruction or terminator at a place. -/
def codeAt? (f : FunctionDef) (pc : Pc) : Option Code :=
  f.blocks[pc.block]?.bind fun b =>
    match b.instructions[pc.inst]? with
    | some i => some (.instruction i)
    | none => if pc.inst = b.instructions.length then some (.terminator b.terminator) else none

def instructionAt? (f : FunctionDef) (pc : Pc) : Option Instruction :=
  f.blocks[pc.block]?.bind (·.instructions[pc.inst]?)

/-- The place after an instruction; a terminator has none. -/
def nextPc? (f : FunctionDef) (pc : Pc) : Option Pc :=
  (f.instructionAt? pc).map fun _ => pc.next

def isValidPc (f : FunctionDef) (pc : Pc) : Bool := (f.codeAt? pc).isSome

/-- All instructions with their places, in order. -/
def instructions (f : FunctionDef) : List (Pc × Instruction) :=
  f.blocks.zipIdx.flatMap fun (b, k) => b.instructions.zipIdx.map fun (i, n) => (⟨k, n⟩, i)

end FunctionDef

end PointerSemantics
