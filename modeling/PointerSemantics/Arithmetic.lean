import PointerSemantics.Fault

/-!
# Integer operations

Operands are integers of one width, or poison, written as `none`. A poison operand makes the result
poison, but division first asks its divisor: a poison or zero divisor is undefined behaviour whatever
is divided.
-/

namespace PointerSemantics

/-- The least signed integer of a width. -/
def minSigned (width : Nat) : Int := Word.signed width (Nat.pow 2 (width - 1))

namespace BinOp

/-- Quotients and remainders, for a divisor other than zero. -/
def divide (op : BinOp) (width l r : Nat) : Exec Value :=
  let sl := Word.signed width l
  let sr := Word.signed width r
  match op with
  | udiv => .ok (.ofBits width (l / r))
  | urem => .ok (.ofBits width (l % r))
  | sdiv =>
    if sl = minSigned width ∧ sr = -1 then Exec.wrong .divisionOverflow
    else .ok (.ofInt width (sl.tdiv sr))
  | srem =>
    if sl = minSigned width ∧ sr = -1 then Exec.wrong .divisionOverflow
    else .ok (.ofInt width (sl.tmod sr))
  | _ => .ok .poison

/-- Operators without division. A shift by the width or more is poison. -/
def combine (op : BinOp) (width l r : Nat) : Value :=
  match op with
  | add => .ofBits width (l + r)
  | sub => .ofInt width ((l : Int) - r)
  | mul => .ofBits width (l * r)
  | and => .ofBits width (l &&& r)
  | or => .ofBits width (l ||| r)
  | xor => .ofBits width (l ^^^ r)
  | shl => if width ≤ r then .poison else .ofBits width (l <<< r)
  | lshr => if width ≤ r then .poison else .ofBits width (l >>> r)
  | ashr => if width ≤ r then .poison else .ofInt width (Word.signed width l >>> r)
  | _ => .poison

def eval (op : BinOp) (width : Nat) (l r : Option Nat) : Exec Value :=
  if op.isDivision then
    match r, l with
    | none, _ => Exec.wrong .poisonDivisor
    | some 0, _ => Exec.wrong .divisionByZero
    | some _, none => .ok .poison
    | some r, some l => op.divide width l r
  else
    match l, r with
    | some l, some r => .ok (op.combine width l r)
    | _, _ => .ok .poison

end BinOp

namespace Pred

/-- A predicate on two integers of one width. -/
def holds (pred : Pred) (width l r : Nat) : Bool :=
  let sl := Word.signed width l
  let sr := Word.signed width r
  match pred with
  | eq => l == r
  | ne => l != r
  | ult => l < r
  | ule => l ≤ r
  | ugt => r < l
  | uge => r ≤ l
  | slt => sl < sr
  | sle => sl ≤ sr
  | sgt => sr < sl
  | sge => sr ≤ sl

def eval (pred : Pred) (width : Nat) (l r : Option Nat) : Value :=
  match l, r with
  | some l, some r => .ofBool (pred.holds width l r)
  | _, _ => .poison

end Pred

end PointerSemantics
