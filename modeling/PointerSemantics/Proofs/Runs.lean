import PointerSemantics.Exploration
import PointerSemantics.Proofs.Erasure

/-!
# Behaviours

`Config.Behaves` says which traces a state has under legal answers. A run with an oracle that answers
legally is one of them, every one of them is such a run (`behaves_iff_exists_nstep`), and an exploration
that is not cut off lists exactly them (`mem_nstepAll_iff`).
-/

namespace PointerSemantics

/-- The trace of a run that took `k` steps before. -/
def Trace.delay (t : Trace) (k : Nat) : Trace := { t with steps := t.steps + k }

theorem Trace.delay_delay (t : Trace) (j k : Nat) : (t.delay j).delay k = t.delay (j + k) := by
  unfold delay
  rw [Nat.add_assoc]

/-- The trace of a run that goes on with what the second trace tells. -/
def Trace.followedBy (t u : Trace) : Trace := ⟨t.events ++ u.events, u.outcome, t.steps + u.steps⟩

theorem Trace.delay_followedBy (t u : Trace) (k : Nat) :
    (t.followedBy u).delay k = (t.delay k).followedBy u := by
  unfold delay followedBy
  rw [Nat.add_right_comm]

theorem Halt.agrees_refl (h : Halt) : h.agrees h = true := by
  cases h <;> simp [agrees]

/-- The traces of at most `n` steps that legal answers lead to. -/
inductive Config.Behaves (p : Program) : Nat → Config → Trace → Prop
  | running {c} : Behaves p 0 c ⟨[], .running c, 0⟩
  | halted {n c h} (hr : .error h ∈ c.successors p) : Behaves p (n + 1) c ⟨[], .halted h, 1⟩
  | step {n c d t} (hr : .ok d ∈ c.successors p) (ht : Behaves p n d t) :
    Behaves p (n + 1) c (t.delay 1)

/-! ## Oracles -/

namespace Oracle

variable {σ : Type}

/-- The oracle answers legally only. -/
def Admitted (o : Oracle σ) : Prop :=
  ∀ (point : ChoicePoint) (s : σ), point.admits (o.choose point s).1 = true

/-- Gives the listed answers in order as long as they are legal, and the first fit otherwise. -/
def guided : Oracle (List Choice) :=
  ⟨fun point script =>
    match script with
    | [] => (point.firstFit, [])
    | c :: rest => (if point.admits c then c else point.firstFit, rest)⟩

theorem admitted_guided : guided.Admitted := by
  intro point script
  cases script with
  | nil => exact point.admits_firstFit
  | cons c rest =>
    show point.admits (if point.admits c then c else point.firstFit) = true
    split
    · next h => exact h
    · exact point.admits_firstFit

/-- Every legal result is the one of some script, whatever the script says afterwards. -/
theorem exists_resolve_guided {α : Type} {x : Ask α} {a : α} (h : a ∈ x.results)
    (script : List Choice) : ∃ script', guided.resolve script' x = (a, script) := by
  cases x with
  | done b =>
    obtain rfl := List.mem_singleton.1 h
    exact ⟨script, rfl⟩
  | ask point answer =>
    obtain ⟨c, hc, rfl⟩ := List.mem_map.1 h
    refine ⟨c :: script, ?_⟩
    have hadmits := (point.mem_options_iff c).1 hc
    show (answer (if point.admits c then c else point.firstFit), script) = _
    rw [if_pos hadmits]

end Oracle

namespace Config

variable {p : Program} {c d : Config} {n : Nat} {t : Trace}

/-! ## Runs with an oracle -/

section Oracle

variable {σ : Type} {o : Oracle σ} {s : σ}

theorem nstep_of_error {h : Halt} {s' : σ} (hr : o.resolve s (c.step p) = (.error h, s')) :
    nstep p o (n + 1) c s = (⟨[], .halted h, 1⟩, s') := by
  unfold nstep
  rw [hr]

theorem nstep_of_ok {s' : σ} (hr : o.resolve s (c.step p) = (.ok d, s')) :
    nstep p o (n + 1) c s = ((nstep p o n d s').1.delay 1, (nstep p o n d s').2) := by
  rw [nstep, hr]
  rfl

/-- A run goes on from a state it reaches like a run that starts there, with the oracle as it was left. -/
theorem nstep_add (h : (nstep p o n c s).1.outcome = .running d) (k : Nat) :
    nstep p o (n + k) c s =
      ((nstep p o n c s).1.followedBy (nstep p o k d (nstep p o n c s).2).1,
        (nstep p o k d (nstep p o n c s).2).2) := by
  induction n generalizing c s with
  | zero =>
    obtain rfl := Outcome.running.inj h
    rw [Nat.zero_add]
    show _ = (Trace.mk ([] ++ _) _ (0 + _), _)
    rw [List.nil_append, Nat.zero_add]
    rfl
  | succ n ih =>
    rw [Nat.add_right_comm]
    rcases hr : o.resolve s (c.step p) with ⟨r, s'⟩
    cases r with
    | error e =>
      rw [nstep_of_error hr] at h
      simp at h
    | ok next =>
      rw [nstep_of_ok hr] at h ⊢
      rw [nstep_of_ok hr, ih h, Trace.delay_followedBy]

theorem outcome_nstep_add (h : (nstep p o n c s).1.outcome = .running d) (k : Nat) :
    (nstep p o (n + k) c s).1.outcome = (nstep p o k d (nstep p o n c s).2).1.outcome := by
  rw [nstep_add h]
  rfl

theorem nstep_one : nstep p o 1 c s =
    (⟨[], .ofStep (o.resolve s (c.step p)).1, 1⟩, (o.resolve s (c.step p)).2) := by
  rcases hr : o.resolve s (c.step p) with ⟨r, s'⟩
  cases r with
  | error h => exact nstep_of_error hr
  | ok d => exact nstep_of_ok hr

/-- A run that can go on has done all its steps. -/
theorem steps_of_running (h : (nstep p o n c s).1.outcome = .running d) : (nstep p o n c s).1.steps = n := by
  induction n generalizing c s with
  | zero => rfl
  | succ n ih =>
    rcases hr : o.resolve s (c.step p) with ⟨r, s'⟩
    cases r with
    | error e =>
      rw [nstep_of_error hr] at h
      simp at h
    | ok next =>
      rw [nstep_of_ok hr] at h ⊢
      exact congrArg (· + 1) (ih h)

/-- Before its last step a run can go on. -/
theorem exists_running_of_lt_steps {k : Nat} (hk : k < (nstep p o n c s).1.steps) :
    ∃ d, (nstep p o k c s).1.outcome = .running d := by
  induction n generalizing c s k with
  | zero => simp at hk
  | succ n ih =>
    cases k with
    | zero => exact ⟨c, rfl⟩
    | succ k =>
      rcases hr : o.resolve s (c.step p) with ⟨r, s'⟩
      cases r with
      | error e =>
        rw [nstep_of_error hr] at hk
        simp at hk
      | ok next =>
        rw [nstep_of_ok hr] at hk ⊢
        exact ih (Nat.lt_of_succ_lt_succ hk)

/-- The last step of a run that can go on. -/
theorem exists_yields_of_running (h : (nstep p o (n + 1) c s).1.outcome = .running d) :
    ∃ e, (nstep p o n c s).1.outcome = .running e ∧ (e.step p).Yields (.ok d) := by
  have hlt : n < (nstep p o (n + 1) c s).1.steps := by
    rw [steps_of_running h]
    exact Nat.lt_succ_self n
  obtain ⟨e, he⟩ := exists_running_of_lt_steps hlt
  refine ⟨e, he, ?_⟩
  have hyields := Ask.yields_resolve o (nstep p o n c s).2 (e.step p)
  rw [outcome_nstep_add he, nstep_one] at h
  cases hr : (o.resolve (nstep p o n c s).2 (e.step p)).1 with
  | error x =>
    rw [hr] at h
    cases h
  | ok next =>
    rw [hr] at h hyields
    obtain rfl := Outcome.running.inj h
    exact hyields

end Oracle

/-! ## Behaviours -/

theorem behaves_nstep {σ : Type} {o : Oracle σ} (ho : o.Admitted) (n : Nat) (c : Config) (s : σ) :
    c.Behaves p n (nstep p o n c s).1 := by
  induction n generalizing c s with
  | zero => exact .running
  | succ n ih =>
    have hmem := o.resolve_mem_results s (c.step p) fun point => ho point s
    unfold nstep
    split
    · next h s' heq =>
      rw [heq] at hmem
      exact .halted hmem
    · next next s' heq =>
      rw [heq] at hmem
      exact .step hmem (ih next s')

theorem Behaves.exists_nstep (h : c.Behaves p n t) :
    ∃ script, (nstep p Oracle.guided n c script).1 = t := by
  induction h with
  | running => exact ⟨[], rfl⟩
  | halted hr =>
    obtain ⟨script, hscript⟩ := Oracle.exists_resolve_guided hr []
    refine ⟨script, ?_⟩
    unfold nstep
    rw [hscript]
  | step hr _ ih =>
    obtain ⟨script, hscript⟩ := ih
    obtain ⟨script', hscript'⟩ := Oracle.exists_resolve_guided hr script
    refine ⟨script', ?_⟩
    unfold nstep
    rw [hscript']
    show ((nstep p Oracle.guided _ _ script).1).delay 1 = _
    rw [hscript]

/-- The behaviours are the traces of runs with legal answers. -/
theorem behaves_iff_exists_nstep : c.Behaves p n t ↔
    ∃ (σ : Type) (o : Oracle σ) (s : σ), o.Admitted ∧ (nstep p o n c s).1 = t := by
  constructor
  · intro h
    obtain ⟨script, hscript⟩ := h.exists_nstep
    exact ⟨List Choice, Oracle.guided, script, Oracle.admitted_guided, hscript⟩
  · rintro ⟨σ, o, s, ho, rfl⟩
    exact behaves_nstep ho n c s

theorem Behaves.mono_of_halted {h : Halt} (ht : c.Behaves p n t) (hh : t.outcome = .halted h) {k : Nat}
    (hk : n ≤ k) : c.Behaves p k t := by
  induction ht generalizing k with
  | running => simp at hh
  | halted hr =>
    obtain ⟨k, rfl⟩ := Nat.exists_eq_add_of_lt (Nat.lt_of_lt_of_le (Nat.succ_pos _) hk)
    rw [Nat.zero_add]
    exact .halted hr
  | @step n c d t hr _ ih =>
    cases k with
    | zero => omega
    | succ k => exact .step hr (ih hh (Nat.le_of_succ_le_succ hk))

/-- Some run of at most `n` steps ends in this way. -/
def Ends (p : Program) (n : Nat) (c : Config) (h : Halt) : Prop :=
  ∃ t, c.Behaves p n t ∧ t.outcome = .halted h

theorem Ends.halted {h : Halt} (hr : .error h ∈ c.successors p) : c.Ends p (n + 1) h :=
  ⟨_, .halted hr, rfl⟩

theorem Ends.step {h : Halt} (hr : .ok d ∈ c.successors p) (hd : d.Ends p n h) :
    c.Ends p (n + 1) h := by
  obtain ⟨t, ht, hh⟩ := hd
  exact ⟨_, .step hr ht, hh⟩

theorem Ends.mono {h : Halt} {k : Nat} (hc : c.Ends p n h) (hk : n ≤ k) : c.Ends p k h := by
  obtain ⟨t, ht, hh⟩ := hc
  exact ⟨t, ht.mono_of_halted hh hk, hh⟩

/-- How a state ends is decided at once or by one of its successors. -/
theorem ends_succ_iff {h : Halt} : c.Ends p (n + 1) h ↔
    .error h ∈ c.successors p ∨ ∃ d, .ok d ∈ c.successors p ∧ d.Ends p n h := by
  constructor
  · rintro ⟨t, ht, hh⟩
    cases ht with
    | halted hr =>
      obtain rfl := Outcome.halted.inj hh
      exact .inl hr
    | step hr ht => exact .inr ⟨_, hr, _, ht, hh⟩
  · rintro (hr | ⟨d, hr, hd⟩)
    · exact .halted hr
    · exact .step hr hd

theorem not_ends_zero {h : Halt} : ¬c.Ends p 0 h := by
  rintro ⟨t, ht, hh⟩
  cases ht
  simp at hh

/-! ## Behaviours of erased states -/

theorem map_erase_successors {e : Erasure} (h : c.Hides p e) :
    ((c.erase e).successors p).map (Except.map (erase e)) =
      (c.successors p).map (Except.map (erase e)) := by
  have hmap : ∀ {x y : Ask (Exec Config)}, x.map (Except.map (erase e)) = y.map (Except.map (erase e)) →
      x.results.map (Except.map (erase e)) = y.results.map (Except.map (erase e)) := by
    intro x y hxy
    have hresults : ∀ z : Ask (Exec Config), z.results.map (Except.map (erase e)) =
        (z.map (Except.map (erase e))).results := by
      intro z
      cases z with
      | done r => rfl
      | ask point answer => exact List.map_map
    rw [hresults, hresults, hxy]
  exact hmap (step_erase h)

theorem map_successors_congr {e : Erasure} (h : c.erase e = d.erase e) (hc : c.Hides p e)
    (hd : d.Hides p e) :
    (c.successors p).map (Except.map (erase e)) = (d.successors p).map (Except.map (erase e)) := by
  rw [← map_erase_successors hc, h, map_erase_successors hd]

/-- States that are equal once erased end in the same ways. -/
theorem Ends.congr {e : Erasure} (he : e.KeepsBases) {h : Halt} (hcd : c.erase e = d.erase e)
    (hc : c.Ends p n h) : d.Ends p n h := by
  induction n generalizing c d with
  | zero => exact absurd hc not_ends_zero
  | succ n ih =>
    have hsucc := map_successors_congr hcd (hides_of_keepsBases (p := p) he) (hides_of_keepsBases he)
    have hmem : ∀ r ∈ c.successors p, ∃ r' ∈ d.successors p,
        Except.map (erase e) r' = Except.map (erase e) r := by
      intro r hr
      exact List.mem_map.1 (hsucc ▸ List.mem_map_of_mem hr)
    rcases ends_succ_iff.1 hc with hr | ⟨c', hr, hc'⟩
    · obtain ⟨r, hr, heq⟩ := hmem _ hr
      obtain rfl := Exec.map_eq_error_iff.1 heq
      exact .halted hr
    · obtain ⟨r, hr, heq⟩ := hmem _ hr
      obtain ⟨d', rfl, hd'⟩ := Exec.map_eq_ok_iff.1 heq
      exact .step hr (ih hd'.symm hc')

end Config

/-! ## Explorations -/

namespace Exploration

variable {e : Exploration} {k : Nat} {rs : List (Exec Config)} {t : Trace}

theorem capped_addHalted : (e.addHalted k rs).capped = e.capped := by
  unfold addHalted
  induction rs with
  | nil => rfl
  | cons r rest ih =>
    rw [List.foldr_cons]
    cases r with
    | error h => exact ih
    | ok d => exact ih

theorem mem_found_addHalted : t ∈ (e.addHalted k rs).found ↔
    t ∈ e.found ∨ ∃ h, .error h ∈ rs ∧ t = ⟨[], .halted h, k⟩ := by
  unfold addHalted
  induction rs with
  | nil => simp
  | cons r rest ih =>
    rw [List.foldr_cons]
    cases r with
    | error h =>
      show t ∈ _ :: _ ↔ _
      rw [List.mem_cons, ih]
      simp only [List.mem_cons, Except.error.injEq]
      constructor
      · rintro (rfl | ht | ⟨h', hr, rfl⟩)
        · exact .inr ⟨h, .inl rfl, rfl⟩
        · exact .inl ht
        · exact .inr ⟨h', .inr hr, rfl⟩
      · rintro (ht | ⟨h', rfl | hr, rfl⟩)
        · exact .inr (.inl ht)
        · exact .inl rfl
        · exact .inr (.inr ⟨h', hr, rfl⟩)
    | ok d =>
      show t ∈ Exploration.found _ ↔ _
      rw [ih]
      simp

end Exploration

section Visit

variable {p : Program} {limit n k : Nat} {e : Exploration} {c : Config} {t : Trace}

/-- Goes on with a result that is a state. -/
def visitNext (p : Program) (limit n k : Nat) (e : Exploration) (r : Exec Config) : Exploration :=
  match r with
  | .ok next => visit p limit n (k + 1) e next
  | .error _ => e

theorem visit_succ : visit p limit (n + 1) k e c =
    if limit ≤ e.found.length then { e with capped := true }
    else (c.successors p).foldl (visitNext p limit n k) (e.addHalted (k + 1) (c.successors p)) := rfl

theorem capped_foldl {rs : List (Exec Config)}
    (hvisit : ∀ e c, e.capped = true → (visit p limit n (k + 1) e c).capped = true)
    (h : e.capped = true) : (rs.foldl (visitNext p limit n k) e).capped = true := by
  induction rs generalizing e with
  | nil => exact h
  | cons r rest ih =>
    rw [List.foldl_cons]
    cases r with
    | error _ => exact ih h
    | ok d => exact ih (hvisit e d h)

/-- A search that was cut off stays so. -/
theorem capped_visit (h : e.capped = true) : (visit p limit n k e c).capped = true := by
  induction n generalizing k e c with
  | zero =>
    unfold visit
    split
    · rfl
    · exact h
  | succ n ih =>
    rw [visit_succ]
    split
    · rfl
    · exact capped_foldl (fun e c he => ih he) (Exploration.capped_addHalted.trans h)

theorem mem_found_foldl {rs : List (Exec Config)}
    (hvisit : ∀ e c, (visit p limit n (k + 1) e c).capped = false → ∀ t,
      t ∈ (visit p limit n (k + 1) e c).found ↔
        t ∈ e.found ∨ ∃ u, c.Behaves p n u ∧ t = u.delay (k + 1))
    (h : (rs.foldl (visitNext p limit n k) e).capped = false) :
    t ∈ (rs.foldl (visitNext p limit n k) e).found ↔
      t ∈ e.found ∨ ∃ d, .ok d ∈ rs ∧ ∃ u, d.Behaves p n u ∧ t = u.delay (k + 1) := by
  induction rs generalizing e with
  | nil => simp
  | cons r rest ih =>
    rw [List.foldl_cons] at h ⊢
    cases r with
    | error x =>
      rw [ih h]
      simp [visitNext]
    | ok d =>
      -- the visit of `d` was not cut off either
      have hd : (visit p limit n (k + 1) e d).capped = false := by
        rw [Bool.eq_false_iff]
        intro hcapped
        have hfold : (rest.foldl (visitNext p limit n k) (visit p limit n (k + 1) e d)).capped = true :=
          capped_foldl (fun _ _ he => capped_visit he) hcapped
        exact Bool.noConfusion (hfold.symm.trans h)
      rw [ih h]
      show (t ∈ (visit p limit n (k + 1) e d).found ∨ _) ↔ _
      rw [hvisit e d hd]
      simp only [List.mem_cons, Except.ok.injEq]
      constructor
      · rintro ((ht | ⟨u, hu, rfl⟩) | ⟨d', hd', u, hu, rfl⟩)
        · exact .inl ht
        · exact .inr ⟨d, .inl rfl, u, hu, rfl⟩
        · exact .inr ⟨d', .inr hd', u, hu, rfl⟩
      · rintro (ht | ⟨d', rfl | hd', u, hu, rfl⟩)
        · exact .inl (.inl ht)
        · exact .inl (.inr ⟨u, hu, rfl⟩)
        · exact .inr ⟨d', hd', u, hu, rfl⟩

/-- A search that was not cut off has added the behaviours of the state. -/
theorem mem_found_visit (h : (visit p limit n k e c).capped = false) :
    t ∈ (visit p limit n k e c).found ↔ t ∈ e.found ∨ ∃ u, c.Behaves p n u ∧ t = u.delay k := by
  induction n generalizing k e c t with
  | zero =>
    unfold visit at h ⊢
    split at h
    · simp at h
    · next hlimit =>
      rw [if_neg hlimit]
      show t ∈ _ :: _ ↔ _
      rw [List.mem_cons]
      constructor
      · rintro (rfl | ht)
        · exact .inr ⟨_, .running, by simp [Trace.delay]⟩
        · exact .inl ht
      · rintro (ht | ⟨u, hu, rfl⟩)
        · exact .inr ht
        · cases hu
          exact .inl (by simp [Trace.delay])
  | succ n ih =>
    rw [visit_succ] at h ⊢
    split at h
    · simp at h
    · next hlimit =>
      rw [if_neg hlimit, mem_found_foldl (fun e c he t => ih he) h, Exploration.mem_found_addHalted]
      constructor
      · rintro ((ht | ⟨x, hx, rfl⟩) | ⟨d, hd, u, hu, rfl⟩)
        · exact .inl ht
        · exact .inr ⟨_, .halted hx, by rw [Nat.add_comm]; rfl⟩
        · exact .inr ⟨_, .step hd hu, by rw [Trace.delay_delay, Nat.add_comm]⟩
      · rintro (ht | ⟨u, hu, rfl⟩)
        · exact .inl (.inl ht)
        · cases hu with
          | @halted _ _ x hx => exact .inl (.inr ⟨x, hx, by rw [Nat.add_comm]; rfl⟩)
          | @step _ _ d u hd hu => exact .inr ⟨d, hd, u, hu, by rw [Trace.delay_delay, Nat.add_comm]⟩

/-- An exploration that was not cut off lists the behaviours. -/
theorem mem_nstepAll_iff (h : (nstepAll p c n limit).2 = false) :
    t ∈ (nstepAll p c n limit).1 ↔ c.Behaves p n t := by
  show t ∈ (visit p limit n 0 ⟨[], false⟩ c).found.reverse ↔ _
  rw [List.mem_reverse, mem_found_visit h]
  constructor
  · rintro (ht | ⟨u, hu, rfl⟩)
    · exact absurd ht List.not_mem_nil
    · exact hu
  · exact fun ht => .inr ⟨t, ht, rfl⟩

end Visit

end PointerSemantics
