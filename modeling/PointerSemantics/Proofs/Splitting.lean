import PointerSemantics.Proofs.Reachable
import PointerSemantics.Proofs.Runs

/-!
# Runs that are split and go on

A run of `a + b` steps is a run of `a` steps and one of `b` steps from where it stopped, with the oracle in
the state it was left in; a run that has ended takes no more steps (`Config.nstep_add`,
`Config.nstep_of_halted`). So a budget that suffices may be raised, and a run is cut off exactly if its last
step left a state that could go on (`nstep_split_and_run_extends`).
-/

namespace PointerSemantics

namespace Config

variable {σ : Type} {p : Program} {o : Oracle σ} {c : Config} {s : σ} {n : Nat}

/-! ## Runs that have ended -/

/-- A run goes on or has ended; only `run` cuts it off. -/
theorem outcome_nstep_cases (p : Program) (o : Oracle σ) (n : Nat) (c : Config) (s : σ) :
    (∃ d, (nstep p o n c s).1.outcome = .running d) ∨ ∃ h, (nstep p o n c s).1.outcome = .halted h := by
  induction n generalizing c s with
  | zero => exact .inl ⟨c, rfl⟩
  | succ n ih =>
    rcases hr : o.resolve s (c.step p) with ⟨r, s'⟩
    cases r with
    | error h =>
      rw [nstep_of_error hr]
      exact .inr ⟨h, rfl⟩
    | ok d =>
      rw [nstep_of_ok hr]
      exact ih d s'

/-- A run that has ended takes no more steps and asks no more questions. -/
theorem nstep_of_halted {h : Halt} (hhalted : (nstep p o n c s).1.outcome = .halted h) (k : Nat) :
    nstep p o (n + k) c s = nstep p o n c s := by
  induction n generalizing c s with
  | zero => cases hhalted
  | succ n ih =>
    rw [Nat.add_right_comm]
    rcases hr : o.resolve s (c.step p) with ⟨r, s'⟩
    cases r with
    | error e => rw [nstep_of_error hr, nstep_of_error hr]
    | ok d =>
      rw [nstep_of_ok hr] at hhalted
      rw [nstep_of_ok hr, nstep_of_ok hr, ih hhalted]

/-! ## Budgets -/

theorem run_of_halted {h : Halt} (hhalted : (nstep p o n c s).1.outcome = .halted h) :
    run p o n c s = nstep p o n c s := by
  have hcutOff : (nstep p o n c s).1.outcome.cutOff = (nstep p o n c s).1.outcome := by
    rw [hhalted]
    rfl
  unfold run
  dsimp only
  rw [hcutOff]

/-- A run is cut off if it could go on. -/
theorem outcome_run_eq_timeout_iff :
    (run p o n c s).1.outcome = .timeout ↔ ∃ d, (nstep p o n c s).1.outcome = .running d := by
  show (nstep p o n c s).1.outcome.cutOff = .timeout ↔ _
  rcases outcome_nstep_cases p o n c s with ⟨d, hd⟩ | ⟨h, hh⟩
  · rw [hd]
    exact ⟨fun _ => ⟨d, rfl⟩, fun _ => rfl⟩
  · rw [hh]
    constructor
    · intro htimeout
      cases htimeout
    · rintro ⟨d, hd⟩
      cases hd

/-- A run that ended within its budget is the same for every larger one. -/
theorem run_of_le {budget : Nat} (hended : (run p o n c s).1.outcome ≠ .timeout) (hle : n ≤ budget) :
    run p o budget c s = run p o n c s := by
  obtain ⟨k, rfl⟩ := Nat.exists_eq_add_of_le hle
  rcases outcome_nstep_cases p o n c s with hrunning | ⟨h, hh⟩
  · exact absurd (outcome_run_eq_timeout_iff.2 hrunning) hended
  · have hlonger := nstep_of_halted hh k
    rw [run_of_halted hh, run_of_halted (hlonger ▸ hh), hlonger]

end Config

/-- Runs split and extend. Where `a` steps lead to a state that goes on, `a + b` steps end as `b` steps from
that state do, with the oracle as it was left: the steps add up and the events follow each other. Where they
do not, more steps change nothing. So a run that is not cut off is the same for every larger budget, and a
run is cut off, after exactly as many steps as it was given, if and only if it could go on. -/
theorem nstep_split_and_run_extends {σ : Type} (p : Program) (o : Oracle σ) (c : Config) (s : σ) :
    (∀ a d, (nstep p o a c s).1.outcome = .running d → ∀ b,
      (nstep p o (a + b) c s).1.outcome = (nstep p o b d (nstep p o a c s).2).1.outcome ∧
      (nstep p o (a + b) c s).1.steps = a + (nstep p o b d (nstep p o a c s).2).1.steps ∧
      (nstep p o (a + b) c s).1.events =
        (nstep p o a c s).1.events ++ (nstep p o b d (nstep p o a c s).2).1.events ∧
      (nstep p o (a + b) c s).2 = (nstep p o b d (nstep p o a c s).2).2) ∧
    (∀ a, (∀ d, (nstep p o a c s).1.outcome ≠ .running d) → ∀ b,
      nstep p o (a + b) c s = nstep p o a c s) ∧
    (∀ budget, (run p o budget c s).1.outcome ≠ .timeout → ∀ budget', budget ≤ budget' →
      run p o budget' c s = run p o budget c s) ∧
    ∀ budget,
      ((run p o budget c s).1.outcome = .timeout ↔ ∃ d, (nstep p o budget c s).1.outcome = .running d) ∧
      ((run p o budget c s).1.outcome = .timeout → (run p o budget c s).1.steps = budget) := by
  refine ⟨?_, ?_, ?_, ?_⟩
  · intro a d h b
    rw [Config.nstep_add h]
    refine ⟨rfl, ?_, rfl, rfl⟩
    show (nstep p o a c s).1.steps + _ = _
    rw [Config.steps_of_running h]
  · intro a h b
    rcases Config.outcome_nstep_cases p o a c s with ⟨d, hd⟩ | ⟨e, he⟩
    · exact absurd hd (h d)
    · exact Config.nstep_of_halted he b
  · intro budget h budget' hle
    exact Config.run_of_le h hle
  · intro budget
    refine ⟨Config.outcome_run_eq_timeout_iff, fun h => ?_⟩
    obtain ⟨d, hd⟩ := Config.outcome_run_eq_timeout_iff.1 h
    exact Config.steps_of_running hd

/-- The caller stops inside the inner call after four steps, and three more lead back to it. Its own return is
the eighth: seven steps are too few for a run, and eight are as good as twenty. -/
theorem caller_split_and_run_extends :
    (∃ d, (nstep cellProgram .firstFit 4 (cellStart 0) ()).1.outcome = .running d ∧
      (nstep cellProgram .firstFit 7 (cellStart 0) ()).1.outcome =
        (nstep cellProgram .firstFit 3 d ()).1.outcome) ∧
      (run cellProgram .firstFit 7 (cellStart 0) ()).1.outcome = .timeout ∧
      (run cellProgram .firstFit 7 (cellStart 0) ()).1.steps = 7 ∧
      run cellProgram .firstFit 20 (cellStart 0) () = run cellProgram .firstFit 8 (cellStart 0) () := by
  obtain ⟨hsplit, -, hextend, hcut⟩ :=
    nstep_split_and_run_extends cellProgram .firstFit (cellStart 0) ()
  have hfour : (run cellProgram .firstFit 4 (cellStart 0) ()).1.outcome = .timeout := by decide +kernel
  have hseven : (run cellProgram .firstFit 7 (cellStart 0) ()).1.outcome = .timeout := by decide +kernel
  have height : (run cellProgram .firstFit 8 (cellStart 0) ()).1.outcome ≠ .timeout := by decide +kernel
  obtain ⟨d, hd⟩ := (hcut 4).1.1 hfour
  exact ⟨⟨d, hd, (hsplit 4 d hd 3).1⟩, hseven, (hcut 7).2 hseven, hextend 8 height 20 (by decide)⟩

end PointerSemantics
