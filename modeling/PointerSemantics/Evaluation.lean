import PointerSemantics.Arithmetic
import PointerSemantics.Byte.Codec
import PointerSemantics.Pointer.Access
import PointerSemantics.Pointer.Move

/-!
# Evaluating operands and instructions

Operands are read from the registers of one frame. `Instruction.compute` is the value of the
instructions that only compute: they read registers and memory, ask nothing and change nothing.

Operands are evaluated and checked in the order in which they are written, so of two faults the
first one shows.
-/

namespace PointerSemantics

/-! ## Operands -/

/-- The value of an operand. -/
def Operand.eval (registers : Table Value) : Operand → Exec Value
  | const (.int width bits) => .ok (.ofBits width bits)
  | const .null => .ok .null
  | const .poison => .ok .poison
  | reg r => Exec.orStuck (.undefinedRegister r) (registers.find? r)

/-- The width of an integer type. -/
def Ty.intWidth (ty : Ty) : Exec Nat :=
  match ty with
  | int w =>
    if 1 ≤ w ∧ w ≤ maxIntBits then .ok w
    else Exec.typeMismatch s!"expected an integer type, got {ty.text}"
  | ptr _ => Exec.typeMismatch s!"expected an integer type, got {ty.text}"

/-- The bits of an integer of a width; `none` for poison. -/
def Value.intOperand (v : Value) (w : Nat) : Exec (Option Nat) :=
  match v with
  | num width bits =>
    if width = w then .ok (some bits) else Exec.typeMismatch s!"expected i{w}, got {v.text}"
  | poison => .ok none
  | ptr _ => Exec.typeMismatch s!"expected i{w}, got {v.text}"

/-- A pointer; `none` for poison. -/
def Value.ptrOperand (v : Value) : Exec (Option Pointer) :=
  match v with
  | ptr p => .ok (some p)
  | poison => .ok none
  | num _ _ => Exec.typeMismatch s!"expected a pointer, got {v.text}"

/-- A pointer to be accessed or freed. -/
def Value.addressOperand (v : Value) : Exec Pointer := do
  match ← v.ptrOperand with
  | some p => return p
  | none => Exec.wrong .poisonAddress

/-! ## Instructions that compute -/

/-- The result of comparing two values at a type; `none` if only addresses could tell. -/
def comparison (m : Memory) (pred : Pred) (ty : Ty) (l r : Value) : Exec (Option Value) :=
  match ty with
  | .int _ => do
    let w ← ty.intWidth
    let l ← l.intOperand w
    let r ← r.intOperand w
    return some (pred.eval w l r)
  | .ptr _ =>
    if pred.isSigned then Exec.typeMismatch "signed comparison of pointers"
    else do
      let p ← l.ptrOperand
      let q ← r.ptrOperand
      match p, q with
      | some p, some q => return (m.ptrHolds? pred p q).map .ofBool
      | _, _ => return some .poison

/-- Integers of one width and pointers of all types can be seen as each other. -/
def Ty.castable : Ty → Ty → Bool
  | int a, int b => a == b
  | ptr _, ptr _ => true
  | _, _ => false

/-- The value of an instruction that neither asks nor changes anything. The others have their effects
below and no value here. -/
def Instruction.compute (m : Memory) (regs : Table Value) : Instruction → Exec Value
  | binOp _ op ty lhs rhs => do
    let w ← ty.intWidth
    let l ← (← lhs.eval regs).intOperand w
    let r ← (← rhs.eval regs).intOperand w
    op.eval w l r
  | select _ cond ty onTrue onFalse => do
    let c ← (← cond.eval regs).intOperand 1
    let t ← onTrue.eval regs
    let f ← onFalse.eval regs
    if !t.hasType ty || !f.hasType ty then Exec.typeMismatch s!"select arms are not {ty.text}"
    else
      match c with
      | none => return .poison
      | some 1 => return t
      | some _ => return f
  | gep _ inbounds ty ptr idx => do
    let p ← (← ptr.eval regs).ptrOperand
    let i ←
      match ← idx.eval regs with
      | .num width bits => pure (some (Word.signed width bits))
      | .poison => pure none
      | v => Exec.typeMismatch s!"gep index {v.text}"
    match p, i with
    | some p, some i => return m.movePointer p (i * ty.size) inbounds
    | _, _ => return .poison
  | psub _ ty lhs rhs => do
    match ty.pointee? with
    | none => Exec.typeMismatch s!"psub on non-pointer type {ty.text}"
    | some elem =>
      let l ← (← lhs.eval regs).ptrOperand
      let r ← (← rhs.eval regs).ptrOperand
      match l, r with
      | some l, some r => return m.pointerDistance l r elem.size
      | _, _ => return .poison
  | ptrToInt _ ptr ty => do
    let w ← ty.intWidth
    match ← (← ptr.eval regs).ptrOperand with
    | none => return .poison
    | some p => return .ofBits w (← Exec.ofMemory (m.address p))
  | intToPtr _ val ty => do
    if !ty.isPtr then Exec.typeMismatch s!"inttoptr to {ty.text}"
    else
      match ← val.eval regs with
      | .num _ bits => return m.pointerOfInt bits
      | .poison => return .poison
      | v => Exec.typeMismatch s!"inttoptr of {v.text}"
  | bitcast _ source val target => do
    let v ← val.eval regs
    if source.castable target && v.hasType source then return v
    else Exec.typeMismatch s!"bitcast {source.text} {v.text} to {target.text}"
  | load _ ty ptr => do
    let p ← (← ptr.eval regs).addressOperand
    let (block, offset) ← m.resolve p ty.size
    let bytes ← Exec.ofMemory (m.read block offset ty.size)
    match Value.decode bytes ty with
    | .ptr (.physical addr _ _) => return m.pointerOfBytes addr
    | v => return v
  | _ => return .poison

end PointerSemantics
