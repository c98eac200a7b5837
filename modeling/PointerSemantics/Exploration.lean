import PointerSemantics.Trace

/-!
# All traces

`nstepAll` follows every legal answer to every question, depth first, and lists the traces. The
successors of a state that end at once are listed before those that go on are followed; the list
ends when `limit` traces are there and more states wait.
-/

namespace PointerSemantics

/-- The traces found, the last first, and whether the limit cut the search off. -/
structure Exploration where
  found : List Trace
  capped : Bool

namespace Exploration

def add (e : Exploration) (t : Trace) : Exploration := { e with found := t :: e.found }

/-- Adds the traces of the successors that end, the last successor first. -/
def addHalted (e : Exploration) (steps : Nat) (results : List (Exec Config)) : Exploration :=
  results.foldr (fun r e =>
    match r with
    | .error h => e.add ⟨[], .halted h, steps⟩
    | .ok _ => e) e

end Exploration

/-- Explores `n` more steps from a state that was reached by `steps` steps. -/
def visit (p : Program) (limit : Nat) : Nat → Nat → Exploration → Config → Exploration
  | n, steps, e, c =>
    if limit ≤ e.found.length then { e with capped := true }
    else
      match n with
      | 0 => e.add ⟨[], .running c, steps⟩
      | n + 1 =>
        let results := c.successors p
        results.foldl (fun e r =>
          match r with
          | .ok next => visit p limit n (steps + 1) e next
          | .error _ => e) (e.addHalted (steps + 1) results)

/-- Every trace of at most `n` steps, and whether more than `limit` were in sight. -/
def nstepAll (p : Program) (c : Config) (n limit : Nat) : List Trace × Bool :=
  let e := visit p limit n 0 ⟨[], false⟩ c
  (e.found.reverse, e.capped)

/-- Every execution, cut off after `budget` steps. -/
def explore (p : Program) (c : Config) (budget limit : Nat) : List Trace × Bool :=
  let (traces, capped) := nstepAll p c budget limit
  (traces.map fun t => { t with outcome := t.outcome.cutOff }, capped)

end PointerSemantics
