import PointerSemantics.Step

/-!
# Traces

A trace says how an execution went: its observable events, how it ended or which state it reached,
and how many steps it took. No step of this machine has an observable event; the relations on traces
are stated for traces with events all the same.

Undefined behaviour absorbs everything: two traces that go wrong are equivalent, and a trace that goes
wrong allows every trace that begins with its events.
-/

namespace PointerSemantics

inductive Event where
  /-- Nothing can be observed -/
  | silent
deriving DecidableEq, Inhabited

def Event.isObservable : Event → Bool
  | silent => false

inductive Outcome where
  | halted (h : Halt)
  /-- The step budget ran out -/
  | timeout
  /-- Stopped after the requested number of steps -/
  | running (c : Config)
deriving DecidableEq

namespace Outcome

/-- The result of a step as an outcome. -/
def ofStep : Exec Config → Outcome
  | .ok c => running c
  | .error h => halted h

def isTerminal : Outcome → Bool
  | halted _ => true
  | timeout | running _ => false

def goesWrong : Outcome → Bool
  | halted (.goesWrong _) => true
  | _ => false

def kind : Outcome → String
  | halted (.finished _) => "finished"
  | halted (.goesWrong _) => "goes-wrong"
  | halted .outOfMemory => "out-of-memory"
  | halted (.stuck _) => "stuck"
  | timeout => "timeout"
  | running _ => "running"

/-- A state still running counts as out of time. -/
def cutOff : Outcome → Outcome
  | running _ => timeout
  | o => o

end Outcome

structure Trace where
  events : List Event
  outcome : Outcome
  steps : Nat
deriving DecidableEq

/-! ## Running -/

section Run

variable {σ : Type} (p : Program) (o : Oracle σ)

/-- Runs at most `n` steps with the answers of an oracle. -/
def nstep : Nat → Config → σ → Trace × σ
  | 0, c, s => (⟨[], .running c, 0⟩, s)
  | n + 1, c, s =>
    match o.resolve s (c.step p) with
    | (.error h, s) => (⟨[], .halted h, 1⟩, s)
    | (.ok next, s) =>
      let (t, s) := nstep n next s
      ({ t with steps := t.steps + 1 }, s)

@[simp] theorem nstep_zero (c : Config) (s : σ) : nstep p o 0 c s = (⟨[], .running c, 0⟩, s) := rfl

/-- A run takes at most the steps it is given. -/
theorem steps_nstep_le (n : Nat) (c : Config) (s : σ) : (nstep p o n c s).1.steps ≤ n := by
  induction n generalizing c s with
  | zero => exact Nat.le_refl 0
  | succ n ih =>
    unfold nstep
    split
    · simp
    · simpa using ih _ _

/-- Runs to the end, or until `budget` steps are done. -/
def run (budget : Nat) (c : Config) (s : σ) : Trace × σ :=
  let (t, s) := nstep p o budget c s
  ({ t with outcome := t.outcome.cutOff }, s)

end Run

/-! ## Relations -/

/-- Two ends of one kind, with the same value or reason; all undefined behaviour is the same. -/
def Halt.agrees : Halt → Halt → Bool
  | finished v, finished w => v == w
  | goesWrong _, goesWrong _ => true
  | outOfMemory, outOfMemory => true
  | stuck r, stuck r' => r == r'
  | _, _ => false

/-- Ends that agree, or states that are equal but for places and clock ticks. -/
def Outcome.agrees : Outcome → Outcome → Bool
  | halted h, halted k => h.agrees k
  | timeout, timeout => true
  | running c, running d => c.eqModuloPc d
  | _, _ => false

namespace Trace

/-- Both go wrong, or the events are the same and the outcomes agree. -/
def equivalent (t u : Trace) : Bool :=
  t.outcome.goesWrong && u.outcome.goesWrong ||
    t.events == u.events && t.outcome.agrees u.outcome

/-- Some source is equivalent, or goes wrong after a beginning of the events. -/
def refines (t : Trace) (sources : List Trace) : Bool :=
  sources.any fun s =>
    t.equivalent s || s.outcome.goesWrong && s.events.isPrefixOf t.events

end Trace

end PointerSemantics
