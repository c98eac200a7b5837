import Mathlib.Data.List.Forall2
import PointerSemantics.Proofs.Answers
import PointerSemantics.Proofs.History
import PointerSemantics.Proofs.Twin

/-!
# Twin runs as single runs

A comparison runs two states side by side. Each side is a run of its own: the left one is answered by the
base oracle with places taken from the policy (`AddressPolicy.placing`), and the right one repeats the
answers. So a verdict says how two runs go that replay one script each, and the scripts agree but for
places (`lockstep_of_compareConfigs`).

With one policy on both sides the runs are the same, and the verdict tells whether they end
(`equivalent_iff_of_compare_self`).
-/

namespace PointerSemantics

/-- Answers as an oracle does, but puts blocks where the policy says. -/
def AddressPolicy.placing {σ : Type} (policy : AddressPolicy) (o : Oracle σ) : Oracle σ :=
  ⟨fun point s => (policy.override point (o.choose point s).1, (o.choose point s).2)⟩

/-- Without events, traces are equivalent if their outcomes agree. -/
theorem Trace.equivalent_mk_nil (x y : Outcome) (n m : Nat) :
    (⟨[], x, n⟩ : Trace).equivalent ⟨[], y, m⟩ = x.agrees y := by
  unfold equivalent
  cases x with
  | halted h =>
    cases y with
    | halted k => cases h <;> cases k <;> rfl
    | timeout => cases h <;> rfl
    | running d => cases h <;> rfl
  | timeout => cases y <;> rfl
  | running c => cases y <;> rfl

namespace Twin

variable {σ : Type} {p : Program} {o : Oracle σ} {left right policy : AddressPolicy} {l r : Config} {s : σ}

/-! ## Matching answers -/

/-- The answers are the same, or each is the place that its side's policy picks. -/
inductive Matches (left right : AddressPolicy) : ChoicePoint × Choice → ChoicePoint × Choice → Prop
  | null (point point' : ChoicePoint) : Matches left right (point, .null) (point', .null)
  | compare (point point' : ChoicePoint) (b : Bool) :
    Matches left right (point, .compare b) (point', .compare b)
  | place (point point' : ChoicePoint) :
    Matches left right (point, .place (left.pick point.candidateCount))
      (point', .place (right.pick point'.candidateCount))

theorem matches_override (point point' : ChoicePoint) (c : Choice) :
    Matches left right (point, left.override point c) (point', right.override point' c) := by
  cases c with
  | null => exact .null point point'
  | place i => exact .place point point'
  | compare b => exact .compare point point' b

/-- One step of both runs is a step of the left one alone and a replay of matching answers on the right. -/
theorem answer_eq_some {α : Type} {x y : Ask α} {a b : α} {s' : σ}
    (h : answer o left right s x y = (some (a, b), s')) :
    (left.placing o).resolve s x = (a, s') ∧ ∃ questions,
      List.Forall₂ (Matches left right) ((left.placing o).answered s x) questions ∧
        y.Replays questions b := by
  cases x with
  | done x =>
    cases y with
    | done y =>
      obtain ⟨⟨rfl, rfl⟩, rfl⟩ : (x = a ∧ y = b) ∧ s = s' := by simpa [answer] using h
      exact ⟨rfl, [], .nil, Ask.replays_done y⟩
    | ask point' g => simp [answer] at h
  | ask point f =>
    cases y with
    | done y => simp [answer] at h
    | ask point' g =>
      unfold answer at h
      dsimp only at h
      split at h
      · obtain ⟨hab, rfl⟩ := Prod.mk.inj h
        obtain ⟨rfl, rfl⟩ := Prod.mk.inj (Option.some.inj hab)
        refine ⟨rfl, _, .cons (matches_override point point' _) .nil, ?_⟩
        exact Ask.replays_ask point' g _
      · simp at h

/-! ## Both runs -/

/-- The left run and a replay on the right take `n` steps to these outcomes, with matching answers. -/
structure Alongside (p : Program) (o : Oracle σ) (left right : AddressPolicy) (n : Nat) (l r : Config)
    (s : σ) (questions : List (ChoicePoint × Choice)) (x y : Outcome) : Prop where
  left_eq : (nstep p (left.placing o) n l s).1 = ⟨[], x, n⟩
  paired : List.Forall₂ (Matches left right) (Config.asked p (left.placing o) n l s) questions
  right_replays : r.Replays p n questions ⟨[], y, n⟩

section Alongside

variable {n : Nat} {questions : List (ChoicePoint × Choice)} {x y : Outcome}

theorem alongside_zero (p : Program) (o : Oracle σ) (left right : AddressPolicy) (l r : Config) (s : σ) :
    Alongside p o left right 0 l r s [] (.running l) (.running r) :=
  ⟨rfl, .nil, Config.replays_zero p r⟩

theorem Alongside.step {l' r' : Config} {s' : σ}
    (h : answer o left right s (l.step p) (r.step p) = (some (.ok l', .ok r'), s'))
    (hrun : Alongside p o left right n l' r' s' questions x y) :
    ∃ questions, Alongside p o left right (n + 1) l r s questions x y := by
  obtain ⟨hl, questions', hpaired, hr⟩ := answer_eq_some h
  refine ⟨questions' ++ questions, ?_, ?_, ?_⟩
  · rw [Config.nstep_of_ok hl, hrun.left_eq]
    rfl
  · rw [Config.asked_of_ok hl]
    exact List.rel_append hpaired hrun.paired
  · exact Config.replays_of_ok hr hrun.right_replays

/-- Both runs after a step that lines up, whether they go on or not. -/
theorem exists_alongside_one {a b : Exec Config} {s' : σ}
    (h : answer o left right s (l.step p) (r.step p) = (some (a, b), s')) :
    ∃ questions, Alongside p o left right 1 l r s questions (.ofStep a) (.ofStep b) := by
  obtain ⟨hl, questions, hpaired, hr⟩ := answer_eq_some h
  refine ⟨questions, ?_, ?_, Config.replays_one hr⟩
  · rw [Config.nstep_one, hl]
  · rw [Config.asked_one]
    exact hpaired

end Alongside

/-! ## Verdicts -/

/-- What a verdict on at most `budget` more steps says of both runs, `steps` being done. -/
inductive Explains (p : Program) (o : Oracle σ) (left right : AddressPolicy) (l r : Config) (s : σ)
    (steps budget : Nat) : TwinVerdict → Prop
  | equivalent {n : Nat} {questions : List (ChoicePoint × Choice)} {h k : Halt} (hn : n ≤ budget)
      (hrun : Alongside p o left right n l r s questions (.halted h) (.halted k))
      (hagrees : h.agrees k = true) :
    Explains p o left right l r s steps budget (.equivalent (steps + n))
  | outcome {n : Nat} {questions : List (ChoicePoint × Choice)} {x y : Outcome} (hn : n ≤ budget)
      (hrun : Alongside p o left right n l r s questions x y) (hagrees : x.agrees y = false) :
    Explains p o left right l r s steps budget (.divergesAt (steps + n) (.outcome x y))
  | choice {n : Nat} {questions : List (ChoicePoint × Choice)} {l' r' : Config} (hn : n < budget)
      (hrun : Alongside p o left right n l r s questions (.running l') (.running r'))
      (hanswer : (answer o left right (nstep p (left.placing o) n l s).2 (l'.step p) (r'.step p)).1 =
        none) :
    Explains p o left right l r s steps budget (.divergesAt (steps + (n + 1)) .choice)
  | inconclusive {questions : List (ChoicePoint × Choice)} {l' r' : Config}
      (hrun : Alongside p o left right budget l r s questions (.running l') (.running r')) :
    Explains p o left right l r s steps budget (.inconclusive (steps + budget))

theorem Explains.step {l' r' : Config} {s' : σ} {steps budget : Nat} {v : TwinVerdict}
    (h : answer o left right s (l.step p) (r.step p) = (some (.ok l', .ok r'), s'))
    (hv : Explains p o left right l' r' s' (steps + 1) budget v) :
    Explains p o left right l r s steps (budget + 1) v := by
  have hsteps : ∀ n, steps + 1 + n = steps + (n + 1) := fun n => by omega
  cases hv with
  | equivalent hn hrun hagrees =>
    obtain ⟨questions, hrun⟩ := hrun.step h
    rw [hsteps]
    exact .equivalent (Nat.succ_le_succ hn) hrun hagrees
  | outcome hn hrun hagrees =>
    obtain ⟨questions, hrun⟩ := hrun.step h
    rw [hsteps]
    exact .outcome (Nat.succ_le_succ hn) hrun hagrees
  | choice hn hrun hanswer =>
    obtain ⟨questions, hrun'⟩ := hrun.step h
    rw [hsteps]
    refine .choice (Nat.succ_lt_succ hn) hrun' ?_
    rw [Config.nstep_of_ok (answer_eq_some h).1]
    exact hanswer
  | inconclusive hrun =>
    obtain ⟨questions, hrun⟩ := hrun.step h
    rw [hsteps]
    exact .inconclusive hrun

theorem explains_compareFrom (p : Program) (o : Oracle σ) (left right : AddressPolicy)
    (budget steps : Nat) (l r : Config) (s : σ) :
    Explains p o left right l r s steps budget (compareFrom p o left right budget steps l r s).1 := by
  induction budget generalizing steps l r s with
  | zero => exact .inconclusive (alongside_zero p o left right l r s)
  | succ budget ih =>
    rw [compareFrom]
    cases hanswer : answer o left right s (l.step p) (r.step p) with
    | mk ab s' =>
      cases ab with
      | none =>
        refine .choice (Nat.succ_pos budget) (alongside_zero p o left right l r s) ?_
        exact congrArg Prod.fst hanswer
      | some ab =>
        obtain ⟨a, b⟩ := ab
        obtain ⟨questions, hone⟩ := exists_alongside_one hanswer
        have hbudget : 1 ≤ budget + 1 := Nat.succ_pos budget
        cases a with
        | ok l' =>
          cases b with
          | ok r' => exact (ih (steps + 1) l' r' s').step hanswer
          | error k => exact .outcome hbudget hone rfl
        | error h =>
          cases b with
          | ok r' => exact .outcome hbudget hone (by cases h <;> rfl)
          | error k =>
            dsimp only
            split
            · next hends => exact .equivalent hbudget hone (Bool.and_eq_true_iff.1 hends).2
            · next hends =>
              refine .outcome hbudget hone ?_
              simpa [Outcome.ofStep, Outcome.isTerminal] using hends

/-- Two runs of `n` steps that replay a script each, with matching answers, and go on until the last
step. -/
structure Lockstep (p : Program) (left right : AddressPolicy) (n : Nat) (l r : Config)
    (as bs : List (ChoicePoint × Choice)) (x y : Outcome) : Prop where
  paired : List.Forall₂ (Matches left right) as bs
  asked_left : Config.asked p .scripted n l (as.map (·.2)) = as
  asked_right : Config.asked p .scripted n r (bs.map (·.2)) = bs
  nstep_left : nstep p .scripted n l (as.map (·.2)) = (⟨[], x, n⟩, [])
  nstep_right : nstep p .scripted n r (bs.map (·.2)) = (⟨[], y, n⟩, [])
  running : ∀ k < n, ∃ l' r', (nstep p .scripted k l (as.map (·.2))).1.outcome = .running l' ∧
    (nstep p .scripted k r (bs.map (·.2))).1.outcome = .running r'

theorem Alongside.lockstep {n : Nat} {questions : List (ChoicePoint × Choice)} {x y : Outcome}
    (h : Alongside p o left right n l r s questions x y) :
    Lockstep p left right n l r (Config.asked p (left.placing o) n l s) questions x y := by
  have hleft := Config.replays_nstep p (left.placing o) n l s
  rw [h.left_eq] at hleft
  have hnl := hleft.nstep_eq []
  have hnr := h.right_replays.nstep_eq []
  have hal := hleft.asked_eq []
  have har := h.right_replays.asked_eq []
  rw [List.append_nil] at hnl hnr hal har
  refine ⟨h.paired, hal, har, hnl, hnr, fun k hk => ?_⟩
  obtain ⟨l', hl'⟩ := Config.exists_running_of_lt_steps (n := n) (by rw [hnl]; exact hk)
  obtain ⟨r', hr'⟩ := Config.exists_running_of_lt_steps (n := n) (by rw [hnr]; exact hk)
  exact ⟨l', r', hl', hr'⟩

/-- What the verdict of a comparison says of single runs. If the runs are equivalent after `n` steps, then
two scripts that agree but for places, each taken from its side's policy, lead both states to equivalent
ends in exactly `n` steps. If the outcomes differ at step `n`, such scripts lead to these outcomes, which
do not agree, and both runs go on until then; if the questions differ, both runs go on for the steps
before. If the comparison is inconclusive, both runs go on for the whole budget. -/
theorem lockstep_of_compareConfigs (p : Program) (o : Oracle σ) (left right : AddressPolicy)
    (l r : Config) (budget : Nat) (s : σ) :
    match (compareConfigs p o left right l r budget s).1 with
    | .equivalent n => n ≤ budget ∧ ∃ as bs x y, Lockstep p left right n l r as bs x y ∧
        x.isTerminal = true ∧ y.isTerminal = true ∧
        (⟨[], x, n⟩ : Trace).equivalent ⟨[], y, n⟩ = true
    | .divergesAt n (.outcome x y) => n ≤ budget ∧ ∃ as bs, Lockstep p left right n l r as bs x y ∧
        (⟨[], x, n⟩ : Trace).equivalent ⟨[], y, n⟩ = false
    | .divergesAt n .choice => ∃ k < budget, n = k + 1 ∧ ∃ as bs l' r',
        Lockstep p left right k l r as bs (.running l') (.running r') ∧
        (answer o left right (nstep p (left.placing o) k l s).2 (l'.step p) (r'.step p)).1 = none
    | .inconclusive n => n = budget ∧ ∃ as bs l' r',
        Lockstep p left right n l r as bs (.running l') (.running r') := by
  have h := explains_compareFrom p o left right budget 0 l r s
  unfold compareConfigs
  generalize (compareFrom p o left right budget 0 l r s).1 = v at h
  cases h with
  | equivalent hn hrun hagrees =>
    dsimp only
    rw [Nat.zero_add]
    exact ⟨hn, _, _, _, _, hrun.lockstep, rfl, rfl, (Trace.equivalent_mk_nil _ _ _ _).trans hagrees⟩
  | outcome hn hrun hagrees =>
    dsimp only
    rw [Nat.zero_add, Trace.equivalent_mk_nil]
    exact ⟨hn, _, _, hrun.lockstep, hagrees⟩
  | choice hn hrun hanswer =>
    dsimp only
    rw [Nat.zero_add]
    exact ⟨_, hn, rfl, _, _, _, _, hrun.lockstep, hanswer⟩
  | inconclusive hrun =>
    dsimp only
    rw [Nat.zero_add]
    exact ⟨rfl, _, _, _, _, hrun.lockstep⟩

/-- Returns the address of a cell. -/
def addressFunction : FunctionDef where
  name := "address"
  params := []
  retTy := .int 32
  blocks :=
    [{ label := "entry"
       phis := []
       instructions := [.alloca 0 (.int 8) (.const (.int 8 1)), .ptrToInt 1 (.reg 0) (.int 32)]
       terminator := .ret (.reg 1) }]

def addressProgram : Program
  | 0 => some addressFunction
  | _ => none

/-- The addresses that the two policies lead to are found by two scripts as well. -/
theorem address_lockstep :
    (compareConfigs addressProgram .firstFit .first .last reuseStart reuseStart 5 ()).1 =
        .divergesAt 3 (.outcome (.halted (.finished (.num 32 8))) (.halted (.finished (.num 32 16)))) ∧
      ∃ as bs, Lockstep addressProgram .first .last 3 reuseStart reuseStart as bs
        (.halted (.finished (.num 32 8))) (.halted (.finished (.num 32 16))) := by
  have hverdict : (compareConfigs addressProgram .firstFit .first .last reuseStart reuseStart 5 ()).1 =
      .divergesAt 3
        (.outcome (.halted (.finished (.num 32 8))) (.halted (.finished (.num 32 16)))) := by
    decide +kernel
  have h := lockstep_of_compareConfigs addressProgram .firstFit .first .last reuseStart reuseStart 5 ()
  rw [hverdict] at h
  obtain ⟨-, as, bs, hlockstep, -⟩ := h
  exact ⟨hverdict, as, bs, hlockstep⟩

/-! ## One policy on both sides -/

/-- Under one policy, equal states are asked one question and give one answer, that of the left run. -/
theorem answer_self {α : Type} (ho : o.Admitted) (policy : AddressPolicy) (s : σ) (x : Ask α) :
    answer o policy policy s x x =
      (some (((policy.placing o).resolve s x).1, ((policy.placing o).resolve s x).1),
        ((policy.placing o).resolve s x).2) := by
  cases x with
  | done a => rfl
  | ask point f =>
    unfold answer
    dsimp only
    rw [if_pos (policy.admits_override (ho point s))]
    rfl

/-- A comparison of a state with itself under one policy follows the left run to its end. -/
theorem compareFrom_self (ho : o.Admitted) (policy : AddressPolicy) (budget steps : Nat) (c : Config)
    (s : σ) : (compareFrom p o policy policy budget steps c c s).1 =
      if (nstep p (policy.placing o) budget c s).1.outcome.isTerminal then
        .equivalent (steps + (nstep p (policy.placing o) budget c s).1.steps)
      else .inconclusive (steps + budget) := by
  induction budget generalizing steps c s with
  | zero => rfl
  | succ budget ih =>
    rw [compareFrom, answer_self ho]
    cases hr : (policy.placing o).resolve s (c.step p) with
    | mk a s' =>
      cases a with
      | error h =>
        have hends : ((Outcome.ofStep (.error h)).isTerminal &&
            (Outcome.ofStep (.error h)).agrees (.ofStep (.error h))) = true :=
          Bool.and_eq_true_iff.2 ⟨rfl, h.agrees_refl⟩
        rw [Config.nstep_of_error hr]
        dsimp only
        rw [if_pos hends]
        rfl
      | ok d =>
        rw [Config.nstep_of_ok hr]
        dsimp only
        rw [ih, Nat.add_assoc, Nat.add_comm 1, Nat.add_assoc, Nat.add_comm 1]
        rfl

/-- A comparison of a state with itself under one policy does not find a difference, and it finds the
runs equivalent after `n` steps exactly if the left run alone ends then. -/
theorem equivalent_iff_of_compare_self (ho : o.Admitted) (policy : AddressPolicy) (p : Program)
    (c : Config) (budget : Nat) (s : σ) :
    ((compare p o policy policy c budget s).1.isEquivalent = true ∨
      (compare p o policy policy c budget s).1 = .inconclusive budget) ∧
    ∀ n, (compare p o policy policy c budget s).1 = .equivalent n ↔
      n ≤ budget ∧ (nstep p (policy.placing o) budget c s).1.outcome.isTerminal = true ∧
        (nstep p (policy.placing o) budget c s).1.steps = n := by
  have hcompare := compareFrom_self (p := p) ho policy budget 0 c s
  rw [Nat.zero_add, Nat.zero_add] at hcompare
  unfold compare compareConfigs
  rw [hcompare]
  constructor
  · split
    · exact .inl rfl
    · exact .inr rfl
  · intro n
    have hle := steps_nstep_le p (policy.placing o) budget c s
    split
    · next hends =>
      rw [TwinVerdict.equivalent.injEq]
      constructor
      · rintro rfl
        exact ⟨hle, hends, rfl⟩
      · exact fun h => h.2.2
    · next hends =>
      constructor
      · exact nofun
      · exact fun h => absurd h.2.1 hends

/-- A program that depends on addresses, and goes wrong in the end, is compared with itself. -/
theorem reuse_equivalent_iff :
    (nstep reuseProgram (AddressPolicy.last.placing .firstFit) 10 reuseStart ()).1.outcome.goesWrong =
        true ∧
      (compare reuseProgram .firstFit .last .last reuseStart 10 ()).1 = .equivalent 6 := by
  have hadmitted : Oracle.firstFit.Admitted := fun point _ => point.admits_firstFit
  have hiff := equivalent_iff_of_compare_self hadmitted .last reuseProgram reuseStart 10 ()
  refine ⟨by decide +kernel, (hiff.2 6).2 ⟨by decide, ?_, ?_⟩⟩
  · decide +kernel
  · decide +kernel

end Twin

end PointerSemantics
