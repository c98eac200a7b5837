import PointerSemantics.Proofs.Operands
import PointerSemantics.Proofs.Swap.Validation

/-!
# Overtaking an allocation that fails

An allocation on the stack may run out of memory, and then no later instruction is executed. What is
exchanged with it is executed first, and must not go wrong where nothing went wrong before. The rules for
exchanging neighbours see to this for operands of the right types: only a division could go wrong there, and
it stays behind (`Config.exchanged_of_failing_alloca`). An operand of another type is a type mismatch that the
failing allocation would have hidden (`illTyped_overtakes_alloca`).
-/

namespace PointerSemantics

/-- What may move ahead of an allocation on the stack only computes. -/
theorem Category.computes_of_commutes {k : Category} (h : alloca.commutes k = true) :
    k.computes = true := by
  cases k with
  | intToPtr | load | store | malloc | alloca | free | call => exact nomatch h
  | binOp | icmpInt | icmpPtr | select | gep | psub | ptrToInt | bitcast => rfl

section Effects

variable {m : Memory} {regs : Table Value} {i j : Instruction}

/-- What may move ahead of an allocation on the stack ends the execution only for its operands. -/
theorem Instruction.MayExchange.isOperandFault (h : i.MayExchange j) (hi : i.category = .alloca) {e : Halt}
    (he : j.prepare regs = .error e) : e.isOperandFault = true := by
  rcases j.fails_prepare _ he with hfault | ⟨-, hj⟩
  · exact hfault
  · exact absurd hi (h.ne_alloca hj)

/-- Behind an instruction that computes, an allocation that fails fails as before. -/
theorem Instruction.MayExchange.ordered_of_failing (h : i.MayExchange j) (hi : i.category = .alloca)
    (hm : m.Usable) (hregs : ∀ r v, regs.find? r = some v → m.PointsWell v)
    (hfail : ∀ r ∈ (i.effect m regs).results, r = .error .outOfMemory) {r : Exec (Effect × Effect)}
    (hr : Ordered (fun m => j.effect m regs) (fun m => i.effect m regs) m r) :
    r = .error .outOfMemory ∨ ∃ e, r = .error e ∧ j.prepare regs = .error e := by
  have hcommutes := h.commutes
  rw [hi] at hcommutes
  have hj : j.category.computes = true := Category.computes_of_commutes hcommutes
  cases hr with
  | @first e hF =>
    rcases results_of_computes hm hregs hj hF with ⟨e', he, hprepare⟩ | ⟨x, hx, -⟩
    · obtain rfl := Except.error.inj he
      exact .inr ⟨e, rfl, hprepare⟩
    · cases hx
  | @second x e hF hG =>
    rcases results_of_computes hm hregs hj hF with ⟨e', he, -⟩ | ⟨x', hx, hmemory⟩
    · cases he
    · obtain rfl := Except.ok.inj hx
      rw [hmemory] at hG
      have hout := Except.error.inj (hfail _ hG)
      exact .inl (congrArg Except.error hout)
  | @both x y hF hG =>
    rcases results_of_computes hm hregs hj hF with ⟨e', he, -⟩ | ⟨x', hx, hmemory⟩
    · cases he
    · obtain rfl := Except.ok.inj hx
      rw [hmemory] at hG
      exact absurd (hfail _ hG) nofun

end Effects

namespace Config

variable {p : Program} {c : Config} {f : Frame} {rest : List Frame} {id : FunctionId}
  {fn fn' : FunctionDef} {i j : Instruction} {t : Trace}

/-- The innermost frame is at an allocation on the stack that fails whatever is answered, and at a neighbour
that may be exchanged with it. -/
structure AtFailingAlloca (p : Program) (c : Config) (f : Frame) (rest : List Frame) (id : FunctionId)
    (fn fn' : FunctionDef) (i j : Instruction) : Prop where
  check : c.check p = .ok ()
  config : c.memory.config.validate = .ok ()
  stack : c.stack = f :: rest
  call : c.callTable.find? f.callId = some id
  function : p id = some fn
  first : fn.instructionAt? f.pc = some i
  second : fn.instructionAt? f.pc.next = some j
  alloca : i.category = .alloca
  valid : i.checkSwap j = .valid
  swapped : fn.swapAt? f.pc = some fn'
  fails : ∀ r ∈ c.successors p, r = .error .outOfMemory

namespace AtFailingAlloca

variable (h : c.AtFailingAlloca p f rest id fn fn' i j)
include h

theorem mayExchange : i.MayExchange j := Instruction.mayExchange_of_checkSwap h.valid

/-- In the exchanged order two steps are out of memory as well, unless the operands of the second instruction
end the execution. -/
theorem twoSteps_cases {r : Exec Config} (hr : c.TwoSteps (p.overlay id fn') r) :
    r = .error .outOfMemory ∨ ∃ e, r = .error e ∧ j.prepare f.registers = .error e := by
  have hwf := Config.check_eq_ok_iff.1 h.check
  have hregs : ∀ r v, f.registers.find? r = some v → c.memory.PointsWell v :=
    fun _ _ => hwf.pointsWell (h.stack ▸ List.mem_cons_self)
  obtain ⟨hicall, hjcall⟩ := Category.ne_call_of_commutes h.mayExchange.commutes
  obtain ⟨hpair, hpair'⟩ := atPair_overlay h.function h.swapped h.first h.second h.stack h.call rfl
  obtain ⟨fn₁, hfirst⟩ := hpair.first
  have hfail : ∀ r ∈ (i.effect c.memory f.registers).results, r = .error .outOfMemory := by
    intro r hr
    have hstep := h.fails _ ((mem_successors_iff h.stack hfirst hicall).2 ⟨r, hr, rfl⟩)
    exact Exec.map_eq_error_iff.1 hstep ▸ rfl
  obtain ⟨r', hr', rfl⟩ := (hpair'.twoSteps_iff hjcall hicall h.mayExchange.first_uses).1 hr
  rcases h.mayExchange.ordered_of_failing h.alloca ⟨hwf.memory, h.config⟩ hregs hfail hr' with
    rfl | ⟨e, rfl, he⟩
  · exact .inl rfl
  · exact .inr ⟨e, rfl, he⟩

/-- Every behaviour of the exchanged order is out of memory, or the operands of the second instruction do not
have their types or cannot be read. -/
theorem behaves_cases (ht : c.Behaves (p.overlay id fn') 2 t) :
    t.events = [] ∧ (t.outcome = .halted .outOfMemory ∨
      ∃ e, t.outcome = .halted e ∧ e.isOperandFault = true ∧ j.accepts f.registers = false) := by
  obtain ⟨hevents, r, hr, hout⟩ := ht.twoSteps
  refine ⟨hevents, ?_⟩
  rcases h.twoSteps_cases hr with rfl | ⟨e, rfl, he⟩
  · exact .inl hout
  · have hfault := h.mayExchange.isOperandFault h.alloca he
    refine .inr ⟨e, hout, hfault, Bool.eq_false_iff.2 fun haccepts => ?_⟩
    have hfaultless : e.isOperandFault = false := Instruction.faultless_of_accepts haccepts e he
    exact absurd (hfault.symm.trans hfaultless) nofun

/-- The order as it is runs out of memory. -/
theorem exists_outOfMemory :
    ∃ t, c.Behaves p 2 t ∧ t.events = [] ∧ t.outcome = .halted .outOfMemory := by
  obtain ⟨r, hr⟩ := List.exists_mem_of_ne_nil _ (c.step p).results_ne_nil
  obtain rfl := h.fails r hr
  exact ⟨_, .halted hr, rfl, rfl⟩

theorem validateSwap_eq (limit : Nat) : c.validateSwap p limit = .ok ⟨i.checkSwap j,
    (nstepAll p c 2 limit).1, (nstepAll (p.overlay id fn') c 2 limit).1,
    (nstepAll p c 2 limit).2 || (nstepAll (p.overlay id fn') c 2 limit).2⟩ := by
  exact Config.validateSwap_eq h.stack h.call h.function h.first h.second h.swapped limit

end AtFailingAlloca

/-- Where an allocation on the stack fails, no instruction that may be exchanged with it goes wrong ahead of
it other than by a type mismatch; and if its operands have their types, the exchanged order is out of memory
too, so that the report on a complete exploration says that it refines the order as it is. -/
theorem exchanged_of_failing_alloca (h : c.AtFailingAlloca p f rest id fn fn' i j) :
    (∀ (σ : Type) (o : Oracle σ) (s : σ) (ub : UndefinedBehavior), o.Admitted →
      (nstep (p.overlay id fn') o 2 c s).1.outcome = .halted (.goesWrong ub) →
        ∃ text, ub = .typeMismatch text) ∧
    (j.accepts f.registers = true →
      (∀ (σ : Type) (o : Oracle σ) (s : σ), o.Admitted →
        (nstep (p.overlay id fn') o 2 c s).1.outcome = .halted .outOfMemory) ∧
      ∀ limit, ∃ report, c.validateSwap p limit = .ok report ∧
        (report.capped = false → report.refines = true)) := by
  refine ⟨?_, fun haccepts => ?_⟩
  · intro σ o s ub ho hwrong
    rcases (h.behaves_cases (behaves_nstep ho 2 c s)).2 with hout | ⟨e, hout, hfault, -⟩
    · cases hwrong.symm.trans hout
    · obtain rfl := Outcome.halted.inj (hwrong.symm.trans hout)
      cases ub with
      | typeMismatch text => exact ⟨text, rfl⟩
      | _ => exact nomatch hfault
  · have htarget : ∀ {t}, c.Behaves (p.overlay id fn') 2 t →
        t.events = [] ∧ t.outcome = .halted .outOfMemory := by
      intro t ht
      obtain ⟨hevents, hout | ⟨-, -, -, hrejects⟩⟩ := h.behaves_cases ht
      · exact ⟨hevents, hout⟩
      · exact absurd (haccepts.symm.trans hrejects) nofun
    refine ⟨fun σ o s ho => (htarget (behaves_nstep ho 2 c s)).2, fun limit => ?_⟩
    refine ⟨_, h.validateSwap_eq limit, fun hcapped => ?_⟩
    obtain ⟨hcapped, hcapped'⟩ := Bool.or_eq_false_iff.1 hcapped
    obtain ⟨s, hs, hsevents, hsout⟩ := h.exists_outOfMemory
    refine List.all_eq_true.2 fun t ht => ?_
    obtain ⟨hevents, hout⟩ := htarget ((mem_nstepAll_iff hcapped').1 ht)
    refine Trace.refines_of_mem ((mem_nstepAll_iff hcapped).2 hs) hevents hsevents (.inr ?_)
    rw [hout, hsout]
    rfl

end Config

/-! ## An address space of 16 bytes -/

/-- Asks for 64 bytes and then executes one more instruction, on its argument. -/
def greedyFunction (ty : Ty) (j : Instruction) : FunctionDef where
  name := "greedy"
  params := [(0, ty)]
  retTy := ty
  blocks :=
    [{ label := "entry"
       phis := []
       instructions := [.alloca 1 (.int 64) (.const (.int 8 8)), j]
       terminator := .ret (.reg 0) }]

def greedyProgram (ty : Ty) (j : Instruction) : Program
  | 0 => some (greedyFunction ty j)
  | _ => none

def greedyFrame (v : Value) : Frame := ⟨0, .entry, Table.ofList [(0, v)], none, []⟩

/-- The start of that function in an address space that is too small for it. -/
def greedyStart (v : Value) : Config :=
  ⟨.empty ⟨16, 8, 2⟩, [greedyFrame v], Table.empty.insert 0 0, 1⟩

/-- Adds one to the argument. -/
def increment : Instruction := .binOp 2 .add (.int 8) (.reg 0) (.const (.int 8 1))

/-- An addition of integers may overtake the allocation. -/
theorem greedy_exchanged : ∃ report,
    (greedyStart (.num 8 5)).validateSwap (greedyProgram (.int 8) increment) 16 = .ok report ∧
      report.capped = false ∧ report.refines = true := by
  have h : (greedyStart (.num 8 5)).AtFailingAlloca (greedyProgram (.int 8) increment)
      (greedyFrame (.num 8 5)) [] 0 (greedyFunction (.int 8) increment)
      (((greedyFunction (.int 8) increment).swapAt? .entry).getD default)
      (.alloca 1 (.int 64) (.const (.int 8 8))) increment :=
    { check := by decide +kernel
      config := by decide
      stack := rfl
      call := rfl
      function := rfl
      first := rfl
      second := rfl
      alloca := rfl
      valid := by decide
      swapped := rfl
      fails := by decide +kernel }
  obtain ⟨-, hreports⟩ := (Config.exchanged_of_failing_alloca h).2 (by decide +kernel)
  obtain ⟨report, hreport, hrefines⟩ := hreports 16
  have hcapped : ((greedyStart (.num 8 5)).validateSwap (greedyProgram (.int 8) increment) 16).toOption.map
      (·.capped) = some false := by
    decide +kernel
  rw [hreport] at hcapped
  have hcomplete : report.capped = false := Option.some.inj hcapped
  exact ⟨report, hreport, hcomplete, hrefines hcomplete⟩

/-- The same addition passes the check of the pair where the argument is a pointer. The allocation fails, and
the exchanged order goes wrong. -/
theorem illTyped_overtakes_alloca :
    (greedyStart .null).check (greedyProgram (.ptr (.int 8)) increment) = .ok () ∧
      (greedyStart .null).memory.config.validate = .ok () ∧
      (Instruction.alloca 1 (.int 64) (.const (.int 8 8))).checkSwap increment = .valid ∧
      (greedyStart .null).successors (greedyProgram (.ptr (.int 8)) increment) = [.error .outOfMemory] ∧
      ((greedyStart .null).validateSwap (greedyProgram (.ptr (.int 8)) increment) 16).toOption.map
        (fun report => (report.target.map (·.outcome), report.capped, report.refines)) =
          some ([.halted (.goesWrong (.typeMismatch "expected i8, got ptr null"))], false, false) := by
  exact ⟨by decide +kernel, by decide, by decide, by decide +kernel, by decide +kernel⟩

end PointerSemantics
