import Mathlib.Algebra.Group.Action.Defs
import Mathlib.Algebra.Order.BigOperators.Group.List
import PointerSemantics.Proofs.Allocation
import PointerSemantics.Proofs.Search
import PointerSemantics.Proofs.Swap.Validation

/-!
# How many traces there are

A question has at most one answer more than there are twin addresses for a block: null and each place that
was offered, or the two results of a comparison (`Config.length_branches_le`). Where no place is offered, one
placement is legal all the same, and it takes the room of the place that is missing. The parameters of the
address space stay as they are in every step, so runs of `n` steps have at most `(1 + k) ^ n` traces, `k`
being the number of twin addresses (`Config.length_leaves_le`).

With that room an exploration is complete, and so is the check of an exchange with the room for two steps
(`nstepAll_complete_of_pow_le`).
-/

namespace PointerSemantics

/-! ## Answers to one question -/

theorem ChoicePoint.length_options_le (point : ChoicePoint) :
    point.options.length ≤ 1 + max point.candidateCount 1 := by
  cases point with
  | malloc size candidates =>
    simp only [options, Choice.placements, candidateCount, List.length_cons, List.length_map,
      List.length_range]
    omega
  | alloca size candidates =>
    simp only [options, Choice.placements, candidateCount, List.length_map, List.length_range]
    omega
  | pointerCompare pred => exact Nat.le_refl 2

/-- No more places are offered than a block may have twin addresses. -/
theorem Memory.length_candidatesFor_le {m : Memory} (hvalid : m.config.validate = .ok ())
    (size : Option Nat) : (m.candidatesFor size).length ≤ m.config.maxCandidates := by
  obtain ⟨-, -, halign, -⟩ := MemConfig.validate_eq_ok_iff.1 hvalid
  cases size with
  | none => exact Nat.zero_le _
  | some size =>
    rcases Nat.eq_zero_or_pos size with rfl | hsize
    · exact Nat.zero_le _
    · exact (firstFit_proposeCandidates hvalid hsize halign _).length_le

namespace Config

variable {p : Program} {c d : Config} {n k : Nat}

/-- A question of a step offers no more places than a block may have twin addresses. -/
theorem candidateCount_le {point : ChoicePoint} {answer : Choice → Exec Config}
    (hvalid : c.memory.config.validate = .ok ()) (h : c.step p = .ask point answer) :
    point.candidateCount ≤ c.memory.config.maxCandidates := by
  cases point with
  | pointerCompare pred => exact Nat.zero_le _
  | malloc size candidates =>
    have hask : c.step p = .ask (.allocation .heap size candidates) answer := h
    obtain ⟨size, -, rfl, -⟩ := step_memory_of_asks hask
    exact Memory.length_candidatesFor_le hvalid size
  | alloca size candidates =>
    have hask : c.step p = .ask (.allocation .stack size candidates) answer := h
    obtain ⟨size, -, rfl, -⟩ := step_memory_of_asks hask
    exact Memory.length_candidatesFor_le hvalid size

/-- A step has at most one result more than there are twin addresses. -/
theorem length_branches_le (p : Program) (hvalid : c.memory.config.validate = .ok ()) :
    (c.step p).branches.length ≤ 1 + c.memory.config.maxCandidates := by
  obtain ⟨-, -, -, -, hpos⟩ := MemConfig.validate_eq_ok_iff.1 hvalid
  cases hstep : c.step p with
  | done r => exact Nat.le_add_right 1 _
  | ask point answer =>
    have hcount := candidateCount_le hvalid hstep
    have hoptions := point.length_options_le
    rw [Ask.branches, List.length_map]
    omega

/-! ## Traces of a run -/

theorem steps_of_mem_branches {answers : List Choice} (h : (answers, .ok d) ∈ (c.step p).branches) :
    c.Steps p d := by
  have hresult : .ok d ∈ (c.step p).results := by
    rw [← Ask.map_branches]
    exact List.mem_map_of_mem h
  exact steps_of_yields (Ask.yields_of_mem_results hresult)

/-- Runs of `n` steps have at most as many traces as `n` answers out of `1 + k` each, where a block has `k`
twin addresses. -/
theorem length_leaves_le (p : Program) (n : Nat) (hc : c.memory.Wf)
    (hvalid : c.memory.config.validate = .ok ()) :
    (leaves p n c).length ≤ (1 + c.memory.config.maxCandidates) ^ n := by
  induction n generalizing c with
  | zero => exact Nat.le_refl 1
  | succ n ih =>
    have hbranch : ∀ b ∈ (c.step p).branches,
        (leavesOf p n b).length ≤ (1 + c.memory.config.maxCandidates) ^ n := by
      intro b hb
      obtain ⟨answers, r⟩ := b
      cases r with
      | error h => exact Nat.one_le_pow _ _ (Nat.lt_add_right _ Nat.one_pos)
      | ok d =>
        have hsteps := steps_of_mem_branches hb
        have hconfig := (hsteps.persists hc).config_eq
        have hd := ih (hsteps.wf hc) (hconfig ▸ hvalid)
        rw [hconfig] at hd
        show ((leaves p n d).map _).length ≤ _
        rw [List.length_map]
        exact hd
    calc (leaves p (n + 1) c).length
        = ((c.step p).branches.flatMap (leavesOf p n)).length := leaves_perm.length_eq
      _ = ((c.step p).branches.map fun b => (leavesOf p n b).length).sum := List.length_flatMap
      _ ≤ (c.step p).branches.length * (1 + c.memory.config.maxCandidates) ^ n := by
          have hsum := List.sum_le_card_nsmul ((c.step p).branches.map fun b => (leavesOf p n b).length)
            ((1 + c.memory.config.maxCandidates) ^ n) (List.forall_mem_map.2 hbranch)
          rwa [List.length_map, smul_eq_mul] at hsum
      _ ≤ (1 + c.memory.config.maxCandidates) * (1 + c.memory.config.maxCandidates) ^ n :=
          Nat.mul_le_mul_right _ (length_branches_le p hvalid)
      _ = (1 + c.memory.config.maxCandidates) ^ (n + 1) := (Nat.pow_succ' ..).symm

/-- With room for all of them an exploration lists all traces. -/
theorem nstepAll_of_pow_le {limit : Nat} (p : Program) (hc : c.memory.Wf)
    (hvalid : c.memory.config.validate = .ok ())
    (hlimit : (1 + c.memory.config.maxCandidates) ^ n ≤ limit) :
    (nstepAll p c n limit).2 = false ∧
      (nstepAll p c n limit).1.length ≤ (1 + c.memory.config.maxCandidates) ^ n := by
  have hleaves := length_leaves_le p n hc hvalid
  rw [nstepAll_eq]
  refine ⟨decide_eq_false (Nat.not_lt.2 (Nat.le_trans hleaves hlimit)), ?_⟩
  rw [List.length_take, List.length_map]
  exact Nat.le_trans (Nat.min_le_right _ _) hleaves

end Config

/-- The twin addresses bound the size of an exploration. From a well-formed state, `n` steps have at most
`(1 + k) ^ n` traces, where a block has up to `k` twin addresses, and an exploration with room for as many is
not cut off. So the check of an exchange with room for two steps is complete for every program, and at every
pair of neighbours it gives a report. -/
theorem nstepAll_complete_of_pow_le {p : Program} {c : Config} {k : Nat} (hcheck : c.check p = .ok ())
    (hvalid : c.memory.config.validate = .ok ()) (hk : c.memory.config.maxCandidates = k) :
    (∀ n limit, (1 + k) ^ n ≤ limit →
      (nstepAll p c n limit).2 = false ∧ (nstepAll p c n limit).1.length ≤ (1 + k) ^ n) ∧
    ∀ limit, (1 + k) ^ 2 ≤ limit →
      (∀ report, c.validateSwap p limit = .ok report → report.capped = false ∧
        report.source.length ≤ (1 + k) ^ 2 ∧ report.target.length ≤ (1 + k) ^ 2) ∧
      ∀ f rest id fn i j, c.stack = f :: rest → c.callTable.find? f.callId = some id →
        p id = some fn → fn.instructionAt? f.pc = some i → fn.instructionAt? f.pc.next = some j →
          ∃ report, c.validateSwap p limit = .ok report := by
  subst hk
  have hwf := (Config.check_eq_ok_iff.1 hcheck).memory
  refine ⟨fun n limit hlimit => Config.nstepAll_of_pow_le p hwf hvalid hlimit, fun limit hlimit => ⟨?_, ?_⟩⟩
  · intro report hreport
    obtain ⟨p', hsource, htarget, hcapped⟩ := Config.exists_of_validateSwap hreport
    obtain ⟨hall, hlength⟩ := Config.nstepAll_of_pow_le p hwf hvalid hlimit
    obtain ⟨hall', hlength'⟩ := Config.nstepAll_of_pow_le p' hwf hvalid hlimit
    rw [hsource, htarget, hcapped, hall, hall']
    exact ⟨rfl, hlength, hlength'⟩
  · intro f rest id fn i j hstack hid hfn hi hj
    obtain ⟨fn', hswap⟩ := FunctionDef.exists_swapAt? hi hj
    exact ⟨_, Config.validateSwap_eq hstack hid hfn hi hj hswap limit⟩

/-- Three answers to a request for a cell on the heap: null and the two places. -/
def heapFunction : FunctionDef where
  name := "heap"
  params := []
  retTy := .ptr (.int 8)
  blocks :=
    [{ label := "entry"
       phis := []
       instructions := [.malloc 0 (.int 8) (.const (.int 8 1)), .malloc 1 (.int 8) (.const (.int 8 1))]
       terminator := .ret (.reg 0) }]

def heapProgram : Program
  | 0 => some heapFunction
  | _ => none

/-- The start of that function in an address space of 64 bytes with two twin addresses for each block. -/
def heapStart : Config := ⟨.empty cellConfig, [⟨0, .entry, .empty, none, []⟩], Table.empty.insert 0 0, 1⟩

/-- Two requests have nine traces, as many as two twin addresses allow, and the check of their exchange is
complete with room for nine. -/
theorem heap_nstepAll_complete :
    (nstepAll heapProgram heapStart 2 9).2 = false ∧ (nstepAll heapProgram heapStart 2 9).1.length = 9 ∧
      ∃ report, heapStart.validateSwap heapProgram 9 = .ok report ∧ report.capped = false := by
  have hcheck : heapStart.check heapProgram = .ok () := by decide +kernel
  have hvalid : heapStart.memory.config.validate = .ok () := by decide
  obtain ⟨hall, hswaps⟩ := nstepAll_complete_of_pow_le hcheck hvalid (k := 2) rfl
  obtain ⟨hcapped, hpairs⟩ := hswaps 9 (by decide)
  obtain ⟨report, hreport⟩ := hpairs _ _ _ _ _ _ rfl rfl rfl rfl rfl
  have hlength : (nstepAll heapProgram heapStart 2 9).1.length = 9 := by decide +kernel
  exact ⟨(hall 2 9 (by decide)).1, hlength, report, hreport, (hcapped report hreport).1⟩

end PointerSemantics
