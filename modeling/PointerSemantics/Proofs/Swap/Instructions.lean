import PointerSemantics.Proofs.Swap.Diamond

/-!
# Two instructions in either order

A pair that passes `checkSwap` reads the same operands in both orders, so its two orders are those of two
actions. What is left are operands that end the execution: if neither instruction is ill-formed when it is
the first, the second may be done ahead of the first (`Instruction.overtakes`).
-/

namespace PointerSemantics

namespace Category

theorem commutes_binOp_right {k l : Category} (h : k.commutes l = true) :
    k.commutes .binOp = true := by
  cases k <;> first | rfl | exact nomatch h

theorem commutes_binOp_left {k l : Category} (h : k.commutes l = true) :
    binOp.commutes l = true := by
  cases l with
  | call => cases k <;> exact nomatch h
  | _ => rfl

theorem ne_call_of_commutes {k l : Category} (h : k.commutes l = true) : k ≠ call ∧ l ≠ call := by
  constructor
  · rintro rfl
    exact nomatch h
  · rintro rfl
    cases k <;> exact nomatch h

end Category

namespace Instruction

/-! ## What the check decides -/

variable {i j : Instruction}

/-- What is checked of a pair that may be exchanged. -/
structure MayExchange (i j : Instruction) : Prop where
  defs_ne : ∀ r, i.def? = some r → j.def? ≠ some r
  /-- The first does not read what the second binds -/
  first_uses : ∀ r, j.def? = some r → r ∉ i.uses
  /-- The second does not read what the first binds -/
  second_uses : ∀ r, i.def? = some r → r ∉ j.uses
  commutes : i.category.commutes j.category = true
  mayTrap : i.category = .alloca → j.mayTrap = false

theorem reads_eq_false_iff {r : Option Reg} : i.reads r = false ↔ ∀ s, r = some s → s ∉ i.uses := by
  cases r <;> simp [reads]

theorem mayExchange_of_checkSwap (h : i.checkSwap j = .valid) : MayExchange i j := by
  unfold checkSwap at h
  split at h
  · simp at h
  · next hwf =>
    split at h
    · simp at h
    · next hdep =>
      split at h
      · simp at h
      · next hcomm =>
        split at h
        · simp at h
        · next htrap =>
          have hpair : pairWellFormed i j = true := by simpa using hwf
          simp only [pairWellFormed, Bool.and_eq_true, Bool.not_eq_true'] at hpair
          obtain ⟨⟨⟨hdefs, -⟩, -⟩, hfirst⟩ := hpair
          refine ⟨fun r hi hj => ?_, reads_eq_false_iff.1 hfirst, ?_, by simpa using hcomm, ?_⟩
          · simp [hi, hj] at hdefs
          · exact reads_eq_false_iff.1 (by simpa [hasDataDependency] using hdep)
          · intro halloca
            simpa [halloca] using htrap

/-! ## Both orders -/

variable {m : Memory} {regs : Table Value}

/-- An instruction whose operands can be read is an action. -/
theorem effect_of_prepare {a : Action} (h : i.prepare regs = .ok a) :
    (fun m => i.effect m regs) = fun m => a.act m := by
  funext m
  rw [effect_eq_act, h]
  rfl

theorem effect_of_prepare_error {e : Halt} (h : i.prepare regs = .error e) (m : Memory) :
    i.effect m regs = .done (.error e) := by
  rw [effect_eq_act, h]
  rfl

theorem MayExchange.commutes_prepared (h : MayExchange i j) {a b : Action}
    (hi : i.prepare regs = .ok a) (hj : j.prepare regs = .ok b) :
    a.category.commutes b.category = true := by
  rcases (prepares_of_prepare hi).category with ha | ha
  · rcases (prepares_of_prepare hj).category with hb | hb
    · rw [ha, hb]
      exact h.commutes
    · rw [ha, hb]
      exact Category.commutes_binOp_right h.commutes
  · rcases (prepares_of_prepare hj).category with hb | hb
    · rw [ha, hb]
      exact Category.commutes_binOp_left h.commutes
    · rw [ha, hb]
      rfl

/-- Where the operands of both instructions can be read, the second may be done ahead of the first. -/
theorem MayExchange.overtakes_of_prepared (h : MayExchange i j) (hm : m.Usable)
    (hregs : ∀ r v, regs.find? r = some v → m.PointsWell v) {a b : Action}
    (hi : i.prepare regs = .ok a) (hj : j.prepare regs = .ok b) :
    Overtakes (fun m => i.effect m regs) (fun m => j.effect m regs) m := by
  rw [effect_of_prepare hi, effect_of_prepare hj]
  exact Action.overtakes hm (fun p hp => (prepares_of_prepare hi).pointerWf hregs hp)
    (fun p hp => (prepares_of_prepare hj).pointerWf hregs hp) (h.commutes_prepared hi hj)

/-- An instruction that is no division and no access or allocation does not overtake an allocation on the
stack by going wrong. -/
theorem MayExchange.ne_alloca (h : MayExchange i j)
    (hj : j.mayTrap = true ∨ j.category ∈ [.load, .store, .malloc, .alloca, .free]) :
    i.category ≠ .alloca := by
  intro halloca
  rcases hj with hj | hj
  · rw [h.mayTrap halloca] at hj
    simp at hj
  · have hcomm := h.commutes
    rw [halloca] at hcomm
    simp only [List.mem_cons, List.not_mem_nil, or_false] at hj
    rcases hj with hj | hj | hj | hj | hj <;> rw [hj] at hcomm <;> exact nomatch hcomm

/-- A pair that may be exchanged leads, exchanged, to nothing new, if neither instruction is ill-formed
when it is the first. -/
theorem MayExchange.overtakes (h : MayExchange i j) (hm : m.Usable)
    (hregs : ∀ r v, regs.find? r = some v → m.PointsWell v)
    (hi : ∀ e, .error e ∈ (i.effect m regs).results → e.isIllFormed = false)
    (hj : ∀ e, .error e ∈ (j.effect m regs).results → e.isIllFormed = false) :
    Overtakes (fun m => i.effect m regs) (fun m => j.effect m regs) m := by
  intro r hr
  cases hpi : i.prepare regs with
  | error e =>
    -- the first one ends the execution at once, and not because it is ill-formed
    have hmem : .error e ∈ (i.effect m regs).results := by
      rw [effect_of_prepare_error hpi]
      exact Ask.mem_results_done.2 rfl
    rcases fails_prepare i e hpi with hfault | ⟨⟨ub, rfl⟩, -⟩
    · exact absurd (Halt.isIllFormed_of_isOperandFault hfault) (by simp [hi e hmem])
    · exact .inl ⟨ub, .first hmem⟩
  | ok a =>
    cases hpj : j.prepare regs with
    | ok b => exact h.overtakes_of_prepared hm hregs hpi hpj r hr
    | error e =>
      have hmem : ∀ m, .error e ∈ (j.effect m regs).results := by
        intro m
        rw [effect_of_prepare_error hpj]
        exact Ask.mem_results_done.2 rfl
      have hre : r = .error e := by
        have hdone := effect_of_prepare_error hpj m
        cases hr with
        | first hF =>
          rw [hdone, Ask.mem_results_done] at hF
          exact congrArg Except.error (Except.error.inj hF)
        | second hF _ => simp [hdone] at hF
        | both hF _ => simp [hdone] at hF
      subst hre
      rcases fails_prepare j e hpj with hfault | ⟨-, hkind⟩
      · exact absurd (Halt.isIllFormed_of_isOperandFault hfault) (by simp [hj e (hmem m)])
      · have halloca : a.category ≠ .alloca := by
          rcases (prepares_of_prepare hpi).category with ha | ha
          · rw [ha]
            exact h.ne_alloca hkind
          · simp [ha]
        have hact : ∀ m, i.effect m regs = a.act m := congrFun (effect_of_prepare hpi)
        rcases Action.exists_mem_or_mayGoWrong hm
            (fun p hp => (prepares_of_prepare hpi).pointerWf hregs hp) halloca with
          ⟨x, hx⟩ | ⟨ub, hub⟩
        · exact .inr (.error (.second (hact m ▸ hx) (hmem _)))
        · exact .inl ⟨ub, .first (hact m ▸ hub)⟩

/-! ## Endings -/

theorem exists_prepare_of_mem {x : Effect} (h : .ok x ∈ (i.effect m regs).results) :
    ∃ a, i.prepare regs = .ok a := by
  cases hp : i.prepare regs with
  | ok a => exact ⟨a, rfl⟩
  | error e => simp [effect_of_prepare_error hp m] at h

/-- No instruction ends the execution as finished. -/
theorem error_ne_finished (hm : m.Usable) (hregs : ∀ r v, regs.find? r = some v → m.PointsWell v)
    {e : Halt} (he : .error e ∈ (i.effect m regs).results) (v : Value) : e ≠ .finished v := by
  rintro rfl
  cases hp : i.prepare regs with
  | error e =>
    rw [effect_of_prepare_error hp m, Ask.mem_results_done] at he
    obtain rfl := Except.error.inj he
    rcases fails_prepare i _ hp with hfault | ⟨⟨ub, hub⟩, -⟩
    · simp [Halt.isOperandFault] at hfault
    · simp at hub
  | ok a =>
    have hact : i.effect m regs = a.act m := congrFun (effect_of_prepare hp) m
    rw [hact] at he
    rcases Action.error_cases hm (fun p hp' => (prepares_of_prepare hp).pointerWf hregs hp') he with
      ⟨ub, hub⟩ | hoom
    · simp at hub
    · simp at hoom

end Instruction

end PointerSemantics
