import PointerSemantics.Trace

/-!
# Twin runs

Two copies of a program run step by step side by side. Every block reserves the same twin addresses in
both, and each run takes its base by a policy of its own. A program that does not depend on concrete
addresses behaves in the same way in both.

The base oracle answers the left run; the right run repeats the answers, except for where a block
goes. Questions that do not line up part the runs.
-/

namespace PointerSemantics

/-- Which twin address becomes the base of a block. -/
inductive AddressPolicy where
  | first
  | last
  /-- The candidate with this index, or the last if there are fewer -/
  | index (i : Nat)
deriving DecidableEq, Inhabited

/-- The index taken among `n` candidates. -/
def AddressPolicy.pick (policy : AddressPolicy) (n : Nat) : Nat :=
  match policy with
  | first => 0
  | last => n - 1
  | index i => min i (n - 1)

/-- The answer with a placement taken from the policy. -/
def AddressPolicy.override (policy : AddressPolicy) (point : ChoicePoint) : Choice → Choice
  | .place _ => .place (policy.pick point.candidateCount)
  | c => c

/-- What parted the runs. -/
inductive Divergence where
  | outcome (left right : Outcome)
  /-- The runs were asked different questions -/
  | choice
deriving DecidableEq

inductive TwinVerdict where
  /-- Both runs ended, in the same way -/
  | equivalent (steps : Nat)
  /-- The runs differ at this step, counted from one -/
  | divergesAt (step : Nat) (cause : Divergence)
  /-- The budget ran out before -/
  | inconclusive (steps : Nat)
deriving DecidableEq

def TwinVerdict.isEquivalent : TwinVerdict → Bool
  | equivalent _ => true
  | _ => false

namespace Twin

variable {σ : Type}

/-- One step of both runs; `none` if their questions do not line up. -/
def answer {α : Type} (o : Oracle σ) (left right : AddressPolicy) (s : σ) :
    Ask α → Ask α → Option (α × α) × σ
  | .done a, .done b => (some (a, b), s)
  | .done _, .ask _ _ => (none, s)
  | .ask point _, .done _ => (none, (o.choose point s).2)
  | .ask point a, .ask point' b =>
    let (c, s) := o.choose point s
    let d := right.override point' c
    if point'.admits d then (some (a (left.override point c), b d), s) else (none, s)

/-- Runs two states side by side for at most `budget` steps, `steps` being done. -/
def compareFrom (p : Program) (o : Oracle σ) (left right : AddressPolicy) :
    Nat → Nat → Config → Config → σ → TwinVerdict × σ
  | 0, steps, _, _, s => (.inconclusive steps, s)
  | budget + 1, steps, l, r, s =>
    match answer o left right s (l.step p) (r.step p) with
    | (none, s) => (.divergesAt (steps + 1) .choice, s)
    | (some (.ok l, .ok r), s) => compareFrom p o left right budget (steps + 1) l r s
    | (some (a, b), s) =>
      if (Outcome.ofStep a).isTerminal && (Outcome.ofStep a).agrees (.ofStep b) then
        (.equivalent (steps + 1), s)
      else (.divergesAt (steps + 1) (.outcome (.ofStep a) (.ofStep b)), s)

/-- Compares the runs of two states under two policies. -/
def compareConfigs (p : Program) (o : Oracle σ) (left right : AddressPolicy) (l r : Config)
    (budget : Nat) (s : σ) : TwinVerdict × σ :=
  compareFrom p o left right budget 0 l r s

/-- Compares the runs of one state under two policies. -/
def compare (p : Program) (o : Oracle σ) (left right : AddressPolicy) (c : Config) (budget : Nat)
    (s : σ) : TwinVerdict × σ :=
  compareConfigs p o left right c c budget s

end Twin

end PointerSemantics
