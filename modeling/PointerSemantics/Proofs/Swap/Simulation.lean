import PointerSemantics.Proofs.Swap.Pairs

/-!
# An exchanged pair in a whole program

Runs of the program with a pair exchanged are followed in the program as it is. Away from the pair both
make the same step; at the pair both make two, and the states behind them are equal up to times. No frame
is ever between the two instructions, since nothing jumps there and neither of them is a call
(`Config.Settled`). So a run that finishes is one of the program as it is, or that one may go wrong
(`finished_or_goesWrong_of_overlay`).
-/

namespace PointerSemantics

namespace Pc

variable {pc : Pc}

theorem next_ne {q : Pc} (h : q ≠ pc) : q.next ≠ pc.next := by
  intro heq
  unfold next at heq
  obtain ⟨hblock, hinst⟩ := Pc.mk.inj heq
  exact h (by cases q; cases pc; simp_all)

theorem start_ne_next (k : Nat) : (⟨k, 0⟩ : Pc) ≠ pc.next := by
  intro heq
  have hinst : 0 = pc.inst + 1 := (Pc.mk.inj heq).2
  omega

end Pc

namespace Config

variable {p : Program} {c d : Config} {id : FunctionId} {fn fn' : FunctionDef} {pc : Pc}
  {i j : Instruction} {f : Frame} {rest : List Frame} {n : Nat}

/-! ## Between the two instructions -/

/-- The state is sound and no frame of the function is at the second of two instructions. -/
structure Settled (id : FunctionId) (pc : Pc) (c : Config) : Prop where
  sound : c.Sound
  calls : c.CallsWf
  frames : ∀ f ∈ c.stack, c.callTable.find? f.callId = some id → f.pc ≠ pc.next

/-- A step of a frame that is not at the first instruction leads no frame to the second. -/
theorem Steps.settled (h : c.Steps p d) (hc : c.Settled id pc)
    (hoff : ∀ f rest, c.stack = f :: rest → c.callTable.find? f.callId = some id → f.pc ≠ pc) :
    d.Settled id pc := by
  refine ⟨h.sound hc.sound, h.callsWf hc.calls, ?_⟩
  cases h with
  | effect hstack =>
    intro g hg hid
    rcases List.mem_cons.1 hg with rfl | hg
    · exact Pc.next_ne (hoff _ _ hstack hid)
    · exact hc.frames g (hstack ▸ List.mem_cons_of_mem _ hg) hid
  | @call f rest fn dst callee args target registers hstack hfetch hcallee hargs =>
    intro g hg hid
    rcases List.mem_cons.1 hg with rfl | hg
    · exact Pc.start_ne_next 0
    · rcases List.mem_cons.1 hg with rfl | hg
      · have hf : f ∈ c.stack := hstack ▸ List.mem_cons_self
        exact Pc.next_ne (hoff f rest hstack ((hc.calls.find?_insert hf callee).symm.trans hid))
      · have hgc : g ∈ c.stack := hstack ▸ List.mem_cons_of_mem _ hg
        exact hc.frames g hgc ((hc.calls.find?_insert hgc callee).symm.trans hid)
  | jump hstack =>
    intro g hg hid
    rcases List.mem_cons.1 hg with rfl | hg
    · exact Pc.start_ne_next _
    · exact hc.frames g (hstack ▸ List.mem_cons_of_mem _ hg) hid
  | @ret f caller outer fn val v memory hstack hfetch hval hfree =>
    intro g hg hid
    rcases List.mem_cons.1 hg with rfl | hg
    · have hcaller := hc.calls.find?_erase hstack List.mem_cons_self
      exact hc.frames caller (by rw [hstack]; simp) (hcaller.symm.trans hid)
    · have hgc := hc.calls.find?_erase hstack (List.mem_cons_of_mem _ hg)
      exact hc.frames g (by rw [hstack]; simp [hg]) (hgc.symm.trans hid)

theorem steps_of_mem (h : .ok d ∈ c.successors p) : c.Steps p d :=
  steps_of_yields (Ask.yields_of_mem_results h)

theorem settled_initial {entry : FunctionId} {args : List Value} {config : MemConfig}
    (h : initial p entry args config = .ok c)
    (hargs : ∀ v ∈ args, (Memory.empty config).valueWf v = true) : c.Settled id pc := by
  refine ⟨sound_initial h fun v hv => (Memory.valueWf_iff.1 (hargs v hv)).1, callsWf_initial h, ?_⟩
  obtain ⟨-, fn, -, -, rfl⟩ := initial_eq_ok h
  intro f hf _
  obtain rfl := List.mem_singleton.1 hf
  exact Pc.start_ne_next 0

/-! ## At the pair -/

namespace AtPair

theorem settled (h : c.AtPair p f rest i j) (hi : i.category ≠ .call) (hj : j.category ≠ .call)
    (huses : ∀ r, i.def? = some r → r ∉ j.uses) (hc : c.Settled id pc) (hpc : f.pc = pc)
    (hd : c.TwoSteps p (.ok d)) : d.Settled id pc := by
  obtain ⟨r, -, hr⟩ := (h.twoSteps_iff hi hj huses).1 hd
  obtain ⟨xy, -, hxy⟩ := Exec.map_eq_ok_iff.1 hr.symm
  cases hd with
  | second hfirst hsecond =>
    have hsteps := steps_of_mem hfirst
    have hsteps' := steps_of_mem hsecond
    refine ⟨hsteps'.sound (hsteps.sound hc.sound), hsteps'.callsWf (hsteps.callsWf hc.calls), ?_⟩
    subst hxy
    intro g hg hid
    rcases List.mem_cons.1 hg with rfl | hg
    · show f.pc.next.next ≠ pc.next
      rw [hpc]
      unfold Pc.next
      simp
    · exact hc.frames g (h.stack ▸ List.mem_cons_of_mem _ hg) hid

/-- The two instructions do not finish the execution. -/
theorem not_finished (h : c.AtPair p f rest i j) (hi : i.category ≠ .call) (hj : j.category ≠ .call)
    (huses : ∀ r, i.def? = some r → r ∉ j.uses) (hc : c.Sound) (v : Value) :
    ¬c.TwoSteps p (.error (.finished v)) := by
  have hregs : ∀ r v, f.registers.find? r = some v → c.memory.PointsWell v := fun _ _ => hc.values.top h.stack
  intro hfin
  obtain ⟨r, hr, he⟩ := (h.twoSteps_iff hi hj huses).1 hfin
  obtain rfl := Exec.map_eq_error_iff.1 he.symm
  cases hr with
  | first hx => exact Instruction.error_ne_finished hc.memory.usable hregs hx v rfl
  | second hx hy =>
    have hdoes := Instruction.effect_does (Ask.yields_of_mem_results hx)
    have hpersists := hdoes.persists hc.memory.wf
    exact Instruction.error_ne_finished (hdoes.sound hc.memory hregs).usable
      (fun r w hw => hpersists.pointsWell (hregs r w hw)) hy v rfl

/-- Where two steps of the exchanged pair lead, two steps of the pair as it is lead, up to times, or
they go wrong. -/
theorem exchange_ok {p' : Program} (h : c.AtPair p f rest i j) (h' : c.AtPair p' f rest j i)
    (hij : i.MayExchange j) (hc : c.Sound) (hd : c.TwoSteps p' (.ok d)) :
    (∃ ub, c.TwoSteps p (.error (.goesWrong ub))) ∨
      ∃ d', c.TwoSteps p (.ok d') ∧ d'.erase .times = d.erase .times := by
  have hregs : ∀ r v, f.registers.find? r = some v → c.memory.PointsWell v := fun _ _ => hc.values.top h.stack
  have hwrongOrOk := h.exchange h' hij hd fun r' hr' heq => by
    -- both instructions were executed, so their operands can be read
    obtain ⟨yx, rfl, -⟩ := Exec.map_eq_ok_iff.1 heq.symm
    cases hr' with
    | both hy hx =>
      obtain ⟨b, hb⟩ := Instruction.exists_prepare_of_mem hy
      obtain ⟨a, ha⟩ := Instruction.exists_prepare_of_mem hx
      exact hij.overtakes_of_prepared hc.memory.usable hregs ha hb _ (.both hy hx)
  rcases hwrongOrOk with hwrong | ⟨r, hr, heq⟩
  · exact .inl hwrong
  · obtain ⟨d', rfl, hd'⟩ := Exec.map_eq_ok_iff.1 heq
    exact .inr ⟨d', hr, hd'⟩

end AtPair

/-! ## Runs -/

/-- Where the exchanged program finishes from a settled state, so does the program as it is, or it may go
wrong. -/
theorem Ends.of_overlay (hfn : p id = some fn) (hswap : fn.swapAt? pc = some fn')
    (hi : fn.instructionAt? pc = some i) (hj : fn.instructionAt? pc.next = some j)
    (hij : i.MayExchange j) {v : Value} (hc : c.Settled id pc)
    (h : c.Ends (p.overlay id fn') n (.finished v)) :
    c.Ends p n (.finished v) ∨ ∃ ub, c.Ends p n (.goesWrong ub) := by
  obtain ⟨hicall, hjcall⟩ := Category.ne_call_of_commutes hij.commutes
  -- the pair takes two steps at once
  induction n using Nat.strongRecOn generalizing c with
  | ind n ih =>
    by_cases hat : ∃ f rest, c.stack = f :: rest ∧ c.callTable.find? f.callId = some id ∧ f.pc = pc
    · obtain ⟨f, rest, hstack, hid, hpc⟩ := hat
      obtain ⟨hpair, hpair'⟩ := atPair_overlay hfn hswap hi hj hstack hid hpc
      have hnot := hpair'.not_finished hjcall hicall hij.first_uses hc.sound v
      cases n with
      | zero => exact absurd h not_ends_zero
      | succ n =>
        rcases ends_succ_iff.1 h with herror | ⟨d₁, hd₁, h⟩
        · exact absurd (.first herror) hnot
        cases n with
        | zero => exact absurd h not_ends_zero
        | succ n =>
          rcases ends_succ_iff.1 h with herror | ⟨d, hd, h⟩
          · exact absurd (.second hd₁ herror) hnot
          rcases hpair.exchange_ok hpair' hij hc.sound (.second hd₁ hd) with
            ⟨ub, hub⟩ | ⟨d', hd', heq⟩
          · exact .inr ⟨ub, hub.ends⟩
          · have hsettled := hpair.settled hicall hjcall hij.second_uses hc hpc hd'
            rcases ih n (by omega) hsettled (h.congr Erasure.keepsBases_times heq.symm) with
              hfin | ⟨ub, hub⟩
            · exact .inl (hd'.ends_of_ok hfin)
            · exact .inr ⟨ub, hd'.ends_of_ok hub⟩
    · have hoff : ∀ f rest, c.stack = f :: rest → c.callTable.find? f.callId = some id → f.pc ≠ pc :=
        fun f rest hstack hid hpc => hat ⟨f, rest, hstack, hid, hpc⟩
      have hstep : c.successors (p.overlay id fn') = c.successors p := by
        unfold successors
        rw [step_overlay hfn hswap hi hj fun f rest hstack hid =>
          ⟨hoff f rest hstack hid, hc.frames f (hstack ▸ List.mem_cons_self) hid⟩]
      cases n with
      | zero => exact absurd h not_ends_zero
      | succ n =>
        rcases ends_succ_iff.1 h with herror | ⟨d, hd, h⟩
        · exact .inl (.halted (hstep ▸ herror))
        · rw [hstep] at hd
          rcases ih n (Nat.lt_succ_self n) ((steps_of_mem hd).settled hc hoff) h with hfin | ⟨ub, hub⟩
          · exact .inl (.step hd hfin)
          · exact .inr ⟨ub, .step hd hub⟩

end Config

/-! ## Oracles -/

section Oracles

variable {σ : Type} {p : Program} {c : Config} {n : Nat}

/-- A state ends in some way if it does so under some oracle that answers legally. -/
theorem Config.ends_iff_exists_nstep {e : Halt} : c.Ends p n e ↔
    ∃ (σ : Type) (o : Oracle σ) (s : σ), o.Admitted ∧ (nstep p o n c s).1.outcome = .halted e := by
  constructor
  · rintro ⟨t, ht, he⟩
    obtain ⟨σ, o, s, ho, rfl⟩ := behaves_iff_exists_nstep.1 ht
    exact ⟨σ, o, s, ho, he⟩
  · rintro ⟨σ, o, s, ho, he⟩
    exact ⟨_, behaves_nstep ho n c s, he⟩

/-- If a program with an approved pair exchanged finishes with a value, the program as it is finishes with
it under some legal answers, or goes wrong under some, within as many steps. -/
theorem finished_or_goesWrong_of_overlay {id : FunctionId} {fn fn' : FunctionDef} {pc : Pc}
    {i j : Instruction} (hfn : p id = some fn) (hswap : fn.swapAt? pc = some fn')
    (hi : fn.instructionAt? pc = some i) (hj : fn.instructionAt? pc.next = some j)
    (hvalid : i.checkSwap j = .valid) {entry : FunctionId} {args : List Value} {config : MemConfig}
    (hinitial : Config.initial p entry args config = .ok c)
    (hargs : ∀ v ∈ args, (Memory.empty config).valueWf v = true) {o : Oracle σ} (ho : o.Admitted)
    {s : σ} {v : Value} (h : (nstep (p.overlay id fn') o n c s).1.outcome = .halted (.finished v)) :
    (∃ (τ : Type) (o' : Oracle τ) (t : τ), o'.Admitted ∧
        (nstep p o' n c t).1.outcome = .halted (.finished v)) ∨
      ∃ (τ : Type) (o' : Oracle τ) (t : τ) (ub : UndefinedBehavior), o'.Admitted ∧
        (nstep p o' n c t).1.outcome = .halted (.goesWrong ub) := by
  have hends := Config.ends_iff_exists_nstep.2 ⟨σ, o, s, ho, h⟩
  have hij := Instruction.mayExchange_of_checkSwap hvalid
  rcases hends.of_overlay hfn hswap hi hj hij (Config.settled_initial hinitial hargs) with
    hfin | ⟨ub, hub⟩
  · exact .inl (Config.ends_iff_exists_nstep.1 hfin)
  · obtain ⟨τ, o', t, ho', ht⟩ := Config.ends_iff_exists_nstep.1 hub
    exact .inr ⟨τ, o', t, ub, ho', ht⟩

end Oracles

/-- The small function with an exchanged pair returns six, and so it does as it is, or it may go wrong. -/
theorem cell_finished_or_goesWrong :
    (nstep (cellProgram.overlay 1 swappedCell) Oracle.firstFit 8 (cellStart 1) ()).1.outcome =
        .halted (.finished (.num 8 6)) ∧
      ((∃ (τ : Type) (o' : Oracle τ) (t : τ), o'.Admitted ∧
          (nstep cellProgram o' 8 (cellStart 1) t).1.outcome = .halted (.finished (.num 8 6))) ∨
        ∃ (τ : Type) (o' : Oracle τ) (t : τ) (ub : UndefinedBehavior), o'.Admitted ∧
          (nstep cellProgram o' 8 (cellStart 1) t).1.outcome = .halted (.goesWrong ub)) := by
  have hfn : cellProgram 1 = some cellFunction := rfl
  have hswap : cellFunction.swapAt? .entry = some swappedCell := rfl
  have hrun : (nstep (cellProgram.overlay 1 swappedCell) Oracle.firstFit 8 (cellStart 1) ()).1.outcome =
      .halted (.finished (.num 8 6)) := by decide +kernel
  have hargs : ∀ v ∈ [Value.num 8 5], (Memory.empty cellConfig).valueWf v = true := by decide
  have hinitial : Config.initial cellProgram 1 [.num 8 5] cellConfig = .ok (cellStart 1) := rfl
  have hadmitted : Oracle.firstFit.Admitted := fun point _ => point.admits_firstFit
  have hvalid : Instruction.checkSwap (.alloca 1 (.int 8) (.const (.int 8 1)))
      (.binOp 2 .add (.int 8) (.reg 0) (.const (.int 8 1))) = .valid := by decide
  exact ⟨hrun, finished_or_goesWrong_of_overlay hfn hswap rfl rfl hvalid hinitial hargs hadmitted hrun⟩

end PointerSemantics
