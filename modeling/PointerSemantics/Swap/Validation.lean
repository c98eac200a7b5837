import PointerSemantics.Exploration
import PointerSemantics.Swap

/-!
# Checking an exchange by running both orders

From a state that is at the first of two neighbouring instructions, both orders are explored for two
steps and the traces compared.
-/

namespace PointerSemantics

/-- Why a state is not at a pair of neighbours. -/
inductive SwapError where
  | emptyStack
  | unknownCall
  | unknownFunction (f : FunctionId)
  | noInstructionPair (pc : Pc)
deriving DecidableEq

def SwapError.message : SwapError → String
  | emptyStack => "Ill-formed configuration: empty call stack"
  | unknownCall => "Ill-formed configuration: frame not in call table"
  | unknownFunction f => s!"Unknown function: {FunctionId.text f}"
  | noInstructionPair pc => s!"No adjacent instruction pair at {pc.text}"

structure SwapReport where
  verdict : SwapVerdict
  /-- Traces of the order as it is -/
  source : List Trace
  /-- Traces of the exchanged order -/
  target : List Trace
  /-- An exploration reached the limit -/
  capped : Bool

namespace SwapReport

/-- The exchanged order behaves only as the order as it is may. -/
def refines (r : SwapReport) : Bool := r.target.all (·.refines r.source)

/-- The two orders allow each other's behaviours. -/
def equivalent (r : SwapReport) : Bool := r.refines && r.source.all (·.refines r.target)

end SwapReport

/-- Explores both orders of the two instructions the innermost frame is at. -/
def Config.validateSwap (p : Program) (c : Config) (limit : Nat) : Except SwapError SwapReport :=
  match c.stack with
  | [] => .error .emptyStack
  | frame :: _ =>
    match c.callTable.find? frame.callId with
    | none => .error .unknownCall
    | some id =>
      match p id with
      | none => .error (.unknownFunction id)
      | some f =>
        match f.instructionAt? frame.pc, f.instructionAt? frame.pc.next, f.swapAt? frame.pc with
        | some i, some j, some swapped =>
          let (source, sourceCapped) := nstepAll p c 2 limit
          let (target, targetCapped) := nstepAll (p.overlay id swapped) c 2 limit
          .ok ⟨i.checkSwap j, source, target, sourceCapped || targetCapped⟩
        | _, _, _ => .error (.noInstructionPair frame.pc)

end PointerSemantics
