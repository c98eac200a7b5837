import PointerSemantics.Ty

/-!
# Instructions

A register is assigned once in a function and is named by its number. An instruction reads operands,
each a register or a constant, and most bind a result to a register. What `def?` and `operands` say
is all that an instruction binds and reads: the rules for exchanging neighbours rest on it.
-/

namespace PointerSemantics

abbrev Reg := Nat

/-- The number of a function in a module. -/
abbrev FunctionId := Nat

inductive Constant where
  /-- An integer; evaluation takes the low `width` bits -/
  | int (width bits : Nat)
  | null
  /-- Poison of any type -/
  | poison
deriving DecidableEq, Inhabited

inductive Operand where
  | reg (r : Reg)
  | const (c : Constant)
deriving DecidableEq, Inhabited

/-- Integer operators; addition, subtraction and multiplication wrap around. -/
inductive BinOp where
  | add | sub | mul | udiv | sdiv | urem | srem | and | or | xor | shl | lshr | ashr
deriving DecidableEq, Inhabited

/-- Comparison predicates. -/
inductive Pred where
  | eq | ne | ult | ule | ugt | uge | slt | sle | sgt | sge
deriving DecidableEq, Inhabited

inductive Instruction where
  | binOp (dst : Reg) (op : BinOp) (ty : Ty) (lhs rhs : Operand)
  /-- The result is one bit -/
  | icmp (dst : Reg) (pred : Pred) (ty : Ty) (lhs rhs : Operand)
  | select (dst : Reg) (cond : Operand) (ty : Ty) (onTrue onFalse : Operand)
  /-- Moves `ptr` by `idx` elements of type `ty` -/
  | gep (dst : Reg) (inbounds : Bool) (ty : Ty) (ptr idx : Operand)
  /-- The distance of two pointers of type `ty`, in elements of its pointee -/
  | psub (dst : Reg) (ty : Ty) (lhs rhs : Operand)
  | ptrToInt (dst : Reg) (ptr : Operand) (ty : Ty)
  | intToPtr (dst : Reg) (val : Operand) (ty : Ty)
  | bitcast (dst : Reg) (source : Ty) (val : Operand) (target : Ty)
  | load (dst : Reg) (ty : Ty) (ptr : Operand)
  | store (ty : Ty) (val ptr : Operand)
  | malloc (dst : Reg) (ty : Ty) (count : Operand)
  /-- The block is released when the frame returns -/
  | alloca (dst : Reg) (ty : Ty) (count : Operand)
  | free (ptr : Operand)
  | call (dst : Option Reg) (callee : FunctionId) (args : List Operand)
deriving DecidableEq, Inhabited

/-- Kinds of instructions that the rules for exchanging neighbours tell apart. -/
inductive Category where
  | binOp | icmpInt | icmpPtr | select | gep | psub | ptrToInt | intToPtr | bitcast | load | store
  | malloc | alloca | free | call
deriving DecidableEq, Inhabited

/-! ## What an instruction reads and binds -/

/-- The register an operand reads. -/
def Operand.reg? : Operand → Option Reg
  | reg r => some r
  | const _ => none

/-- Operators whose divisor may be neither poison nor zero. -/
def BinOp.isDivision : BinOp → Bool
  | udiv | sdiv | urem | srem => true
  | _ => false

def Pred.isSigned : Pred → Bool
  | slt | sle | sgt | sge => true
  | _ => false

namespace Instruction

/-- The register the instruction binds. -/
def def? : Instruction → Option Reg
  | binOp dst .. | icmp dst .. | select dst .. | gep dst .. | psub dst .. | ptrToInt dst ..
  | intToPtr dst .. | bitcast dst .. | load dst .. | malloc dst .. | alloca dst .. => some dst
  | call dst .. => dst
  | store .. | free .. => none

/-- The operands the instruction reads, in order. -/
def operands : Instruction → List Operand
  | binOp _ _ _ lhs rhs | icmp _ _ _ lhs rhs | psub _ _ lhs rhs => [lhs, rhs]
  | select _ cond _ onTrue onFalse => [cond, onTrue, onFalse]
  | gep _ _ _ ptr idx => [ptr, idx]
  | ptrToInt _ ptr _ | load _ _ ptr | free ptr => [ptr]
  | intToPtr _ val _ | bitcast _ _ val _ => [val]
  | store _ val ptr => [val, ptr]
  | malloc _ _ count | alloca _ _ count => [count]
  | call _ _ args => args

/-- The registers the instruction reads. -/
def uses (i : Instruction) : List Reg := i.operands.filterMap Operand.reg?

def category : Instruction → Category
  | binOp .. => .binOp
  | icmp _ _ ty .. => if ty.isPtr then .icmpPtr else .icmpInt
  | select .. => .select
  | gep .. => .gep
  | psub .. => .psub
  | ptrToInt .. => .ptrToInt
  | intToPtr .. => .intToPtr
  | bitcast .. => .bitcast
  | load .. => .load
  | store .. => .store
  | malloc .. => .malloc
  | alloca .. => .alloca
  | free .. => .free
  | call .. => .call

end Instruction

/-! ## Text -/

def Reg.text (r : Reg) : String := s!"%r{r}"

def FunctionId.text (f : FunctionId) : String := s!"@f{f}"

def Operand.text : Operand → String
  | reg r => Reg.text r
  | const (.int _ bits) => s!"{bits}"
  | const .null => "null"
  | const .poison => "poison"

def BinOp.mnemonic : BinOp → String
  | add => "add"
  | sub => "sub"
  | mul => "mul"
  | udiv => "udiv"
  | sdiv => "sdiv"
  | urem => "urem"
  | srem => "srem"
  | and => "and"
  | or => "or"
  | xor => "xor"
  | shl => "shl"
  | lshr => "lshr"
  | ashr => "ashr"

def Pred.mnemonic : Pred → String
  | eq => "eq"
  | ne => "ne"
  | ult => "ult"
  | ule => "ule"
  | ugt => "ugt"
  | uge => "uge"
  | slt => "slt"
  | sle => "sle"
  | sgt => "sgt"
  | sge => "sge"

def Category.all : List Category :=
  [.binOp, .icmpInt, .icmpPtr, .select, .gep, .psub, .ptrToInt, .intToPtr, .bitcast, .load, .store,
    .malloc, .alloca, .free, .call]

def Category.name : Category → String
  | binOp => "BinOp"
  | icmpInt => "ICmpInt"
  | icmpPtr => "ICmpPtr"
  | select => "Select"
  | gep => "Gep"
  | psub => "Psub"
  | ptrToInt => "PtrToInt"
  | intToPtr => "IntToPtr"
  | bitcast => "Bitcast"
  | load => "Load"
  | store => "Store"
  | malloc => "Malloc"
  | alloca => "Alloca"
  | free => "Free"
  | call => "Call"

namespace Instruction

/-- The instruction without its destination. -/
def body : Instruction → String
  | binOp _ op ty lhs rhs => s!"{op.mnemonic} {ty.text} {lhs.text}, {rhs.text}"
  | icmp _ pred ty lhs rhs => s!"icmp {pred.mnemonic} {ty.text} {lhs.text}, {rhs.text}"
  | select _ cond ty onTrue onFalse =>
    s!"select i1 {cond.text}, {ty.text} {onTrue.text}, {onFalse.text}"
  | gep _ true ty ptr idx => s!"gep inbounds {ty.text}, {ptr.text}, {idx.text}"
  | gep _ false ty ptr idx => s!"gep {ty.text}, {ptr.text}, {idx.text}"
  | psub _ ty lhs rhs => s!"psub {ty.text} {lhs.text}, {rhs.text}"
  | ptrToInt _ ptr ty => s!"ptrtoint {ptr.text} to {ty.text}"
  | intToPtr _ val ty => s!"inttoptr {val.text} to {ty.text}"
  | bitcast _ source val target => s!"bitcast {source.text} {val.text} to {target.text}"
  | load _ ty ptr => s!"load {ty.text}, {ptr.text}"
  | store ty val ptr => s!"store {ty.text} {val.text}, {ptr.text}"
  | malloc _ ty count => s!"malloc {ty.text}, {count.text}"
  | alloca _ ty count => s!"alloca {ty.text}, {count.text}"
  | free ptr => s!"free {ptr.text}"
  | call _ callee args =>
    s!"call {FunctionId.text callee}(" ++ ", ".intercalate (args.map Operand.text) ++ ")"

def text (i : Instruction) : String :=
  match i.def? with
  | some dst => s!"{Reg.text dst} = " ++ i.body
  | none => i.body

end Instruction

end PointerSemantics
