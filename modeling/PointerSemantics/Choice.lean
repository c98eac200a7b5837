import PointerSemantics.Instruction

/-!
# Choices

A step has at most one point where several results are legal: where an allocation goes, and whether
it succeeds, or how two pointers compare whose provenance does not tell. The semantics asks instead
of picking, so that one definition serves single runs, exhaustive exploration and twin runs.

`mem_options_iff` says that the listed answers are the admitted ones.
-/

namespace PointerSemantics

/-- A question with several legal answers. -/
inductive ChoicePoint where
  /-- Fail with null or place at one of the candidates -/
  | malloc (size : Nat) (candidates : List Nat)
  /-- Place at one of the candidates -/
  | alloca (size : Nat) (candidates : List Nat)
  /-- A comparison that only addresses could decide -/
  | pointerCompare (pred : Pred)
deriving DecidableEq, Inhabited

inductive Choice where
  /-- The allocation yields null -/
  | null
  /-- The allocation goes to the candidate with this index; with no candidates memory is exhausted -/
  | place (index : Nat)
  /-- The result of the comparison -/
  | compare (result : Bool)
deriving DecidableEq, Inhabited

/-- The placements among `n` candidates; where there are none one placement stands for running out
of memory. -/
def Choice.placements (n : Nat) : List Choice := (List.range (max n 1)).map place

namespace ChoicePoint

/-- Every legal answer, in a fixed order. -/
def options : ChoicePoint → List Choice
  | malloc _ candidates => .null :: Choice.placements candidates.length
  | alloca _ candidates => Choice.placements candidates.length
  | pointerCompare _ => [.compare true, .compare false]

/-- The answer is legal. -/
def admits : ChoicePoint → Choice → Bool
  | malloc .., .null => true
  | malloc _ candidates, .place i | alloca _ candidates, .place i => i < max candidates.length 1
  | pointerCompare _, .compare _ => true
  | _, _ => false

/-- The first candidate; a comparison that is open is false. -/
def firstFit : ChoicePoint → Choice
  | malloc .. | alloca .. => .place 0
  | pointerCompare _ => .compare false

/-- The number of candidates of an allocation. -/
def candidateCount : ChoicePoint → Nat
  | malloc _ candidates | alloca _ candidates => candidates.length
  | pointerCompare _ => 0

theorem mem_options_iff (p : ChoicePoint) (c : Choice) : c ∈ p.options ↔ p.admits c = true := by
  cases p <;> cases c <;> simp [options, admits, Choice.placements]

end ChoicePoint

/-! ## Questions -/

/-- A computation that asks at most one question and then ends. -/
inductive Ask (α : Type) where
  | done (a : α)
  | ask (point : ChoicePoint) (answer : Choice → α)

namespace Ask

variable {α β : Type}

def map (f : α → β) : Ask α → Ask β
  | done a => done (f a)
  | ask point answer => ask point fun c => f (answer c)

/-- The question, if there is one. -/
def point? : Ask α → Option ChoicePoint
  | done _ => none
  | ask point _ => some point

/-- Every legal result, one for each legal answer. -/
def results : Ask α → List α
  | done a => [a]
  | ask point answer => point.options.map answer

end Ask

/-! ## Oracles -/

/-- A source of answers with a state of its own. -/
structure Oracle (σ : Type) where
  choose : ChoicePoint → σ → Choice × σ

namespace Oracle

variable {σ α β : Type}

/-- The result of a computation with its question answered. -/
def resolve (o : Oracle σ) (s : σ) : Ask α → α × σ
  | .done a => (a, s)
  | .ask point answer => (answer (o.choose point s).1, (o.choose point s).2)

@[simp] theorem resolve_done (o : Oracle σ) (s : σ) (a : α) : o.resolve s (.done a) = (a, s) := rfl

theorem resolve_map (o : Oracle σ) (s : σ) (f : α → β) (x : Ask α) :
    o.resolve s (x.map f) = (f (o.resolve s x).1, (o.resolve s x).2) := by
  cases x <;> rfl

/-- An oracle that gives legal answers gives one of the legal results. -/
theorem resolve_mem_results (o : Oracle σ) (s : σ) (x : Ask α)
    (h : ∀ point : ChoicePoint, (point.admits (o.choose point s).1) = true) :
    (o.resolve s x).1 ∈ x.results := by
  cases x with
  | done a => exact List.mem_singleton.2 rfl
  | ask point answer =>
    exact List.mem_map.2 ⟨_, (point.mem_options_iff _).2 (h point), rfl⟩

/-- Allocations go to the first candidate and open comparisons are false. -/
def firstFit : Oracle Unit := ⟨fun point s => (point.firstFit, s)⟩

/-- Gives the listed answers in order, then the first fit. The state is what is left of the list. -/
def scripted : Oracle (List Choice) :=
  ⟨fun point script =>
    match script with
    | [] => (point.firstFit, [])
    | c :: rest => (c, rest)⟩

/-- Answers as `o` does and keeps the questions with the answers, the last first. -/
def recording (o : Oracle σ) : Oracle (σ × List (ChoicePoint × Choice)) :=
  ⟨fun point (s, log) =>
    let (c, s') := o.choose point s
    (c, s', (point, c) :: log)⟩

end Oracle

end PointerSemantics
