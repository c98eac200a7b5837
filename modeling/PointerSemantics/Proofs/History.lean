import PointerSemantics.Proofs.Memory.Access
import PointerSemantics.Proofs.Reachable
import PointerSemantics.Proofs.Runs

/-!
# The history of a run

A run only adds to the history of memory: the blocks of a state are in every later state, under the
same number and at the same place, and those that were dead there have not changed. Numbers of
blocks are never given twice, so a pointer that was derived from a dead block, or attributed to it
when it was cast, is of no use for good (`persists_and_dead_of_nstep`), whatever lies at its address
now.
-/

namespace PointerSemantics

/-! ## Pointers to dead blocks -/

/-- An access through a pointer with an origin goes to that block. -/
theorem Block.Reaches.eq_of_block? {id j : BlockId} {b : Block} {q : Pointer} {len offset : Nat}
    (h : b.Reaches j q len offset) (hq : q.block? = some id) : id = j := by
  cases q with
  | null => simp [Pointer.block?] at hq
  | logical block o =>
    obtain rfl := Option.some.inj hq
    exact h.1
  | physical addr visited owner => exact h.2.2.1 id hq

namespace Memory

variable {m m' : Memory} {id : BlockId} {b : Block} {q : Pointer}

theorem Usable.resolve_of_dead (hm : m.Usable) (hb : m.get? id = some b) (hdead : b.isAlive = false)
    (hq : q.block? = some id) (len : Nat) : ∃ h, m.resolve q len = .error h := by
  cases hr : m.resolve q len with
  | error h => exact ⟨h, rfl⟩
  | ok target =>
    obtain ⟨c, hc, hlive, hreaches⟩ := hm.resolve_eq_ok_iff.1 hr
    obtain rfl := hreaches.eq_of_block? hq
    obtain rfl := Option.some.inj (hb.symm.trans hc)
    rw [hdead] at hlive
    simp at hlive

theorem freePointer_of_dead (hb : m.get? id = some b) (hdead : b.isAlive = false)
    (hq : q.block? = some id) : ∃ h, m.freePointer q = .error h := by
  cases hf : m.freePointer q with
  | error h => exact ⟨h, rfl⟩
  | ok m' =>
    obtain ⟨j, c, rfl, hc, hlive, -⟩ := freePointer_eq_ok hf
    obtain rfl := Option.some.inj hq
    obtain rfl := Option.some.inj (hb.symm.trans hc)
    rw [hdead] at hlive
    simp at hlive

end Memory

namespace Instruction

/-- The pointer through which an instruction accesses or releases a block. -/
def accessed? : Instruction → Option Operand
  | load _ _ ptr | store _ _ ptr | free ptr => some ptr
  | _ => none

variable {m : Memory} {regs : Table Value} {i : Instruction} {op : Operand} {q : Pointer}

/-- What is neither resolved nor released is neither loaded, stored nor freed. -/
theorem effect_of_not_accessible (haccess : i.accessed? = some op)
    (hop : op.eval regs = .ok (.ptr q)) (hresolve : ∀ len, ∃ h, m.resolve q len = .error h)
    (hfree : ∃ h, m.freePointer q = .error h) :
    ∃ h, i.effect m regs = .done (.error h) := by
  have haddress : (Value.ptr q).addressOperand = .ok q := Value.addressOperand_eq_ok_iff.2 rfl
  cases i with
  | load dst ty ptr =>
    obtain rfl := Option.some.inj haccess
    obtain ⟨h, hh⟩ := hresolve ty.size
    refine ⟨h, ?_⟩
    show Ask.done (Except.map _ (compute m regs (.load dst ty ptr))) = _
    simp only [compute, hop, haddress, hh, Exec.ok_bind, Exec.error_bind]
    rfl
  | store ty val ptr =>
    obtain rfl := Option.some.inj haccess
    obtain ⟨h, hh⟩ := hresolve ty.size
    simp only [effect, hop, haddress, hh, Exec.ok_bind, Exec.error_bind]
    -- the value is looked at first
    cases val.eval regs with
    | error e => exact ⟨e, rfl⟩
    | ok v =>
      by_cases hty : v.hasType ty = true
      · exact ⟨h, by simp [hty]⟩
      · exact ⟨_, by simp [hty]; rfl⟩
  | free ptr =>
    obtain rfl := Option.some.inj haccess
    obtain ⟨h, hh⟩ := hfree
    refine ⟨h, ?_⟩
    simp only [effect, hop, haddress, hh, Exec.ok_bind, Exec.error_bind]
  | _ => simp [accessed?] at haccess

end Instruction

/-! ## Runs -/

namespace Config

variable {σ : Type} {p : Program} {o : Oracle σ} {c d : Config} {s : σ} {n k : Nat}

/-- At an instruction that accesses a dead block the execution ends. -/
theorem step_of_dead (hm : d.memory.Usable) {id : BlockId} {b : Block}
    (hb : d.memory.get? id = some b) (hdead : b.isAlive = false) {f : Frame} {rest : List Frame}
    {fn : FunctionDef} {i : Instruction} {op : Operand} {q : Pointer} (hstack : d.stack = f :: rest)
    (hfetch : d.fetch p f = .ok (fn, .instruction i)) (haccess : i.accessed? = some op)
    (hop : op.eval f.registers = .ok (.ptr q)) (hq : q.block? = some id) :
    ∃ h, d.step p = .done (.error h) := by
  obtain ⟨h, heffect⟩ := Instruction.effect_of_not_accessible haccess hop
    (hm.resolve_of_dead hb hdead hq) (Memory.freePointer_of_dead hb hdead hq)
  have hcall : i.category ≠ .call := by
    intro hcategory
    cases i <;> simp [Instruction.accessed?, Instruction.category] at haccess hcategory
  refine ⟨h, ?_⟩
  rw [step_instruction hstack hfetch hcall, heffect]
  rfl

/-- A run keeps the invariant of memory and adds to its history. -/
theorem wf_and_persists_of_nstep (hc : c.memory.Wf) (h : (nstep p o n c s).1.outcome = .running d) :
    d.memory.Wf ∧ c.memory.Persists d.memory := by
  refine nstep_invariant (I := fun d => d.memory.Wf ∧ c.memory.Persists d.memory) ?_
    ⟨hc, .refl c.memory⟩ h
  rintro d e ⟨hwf, hpersists⟩ hsteps
  exact ⟨hsteps.wf hwf, hpersists.trans (hsteps.persists hwf)⟩

/-- From one state of a run to a later one the history of memory is only added to, and no load,
store or release through a pointer to a block that was dead before succeeds. -/
theorem persists_and_dead_of_nstep {c₀ : Config} (hvalid : c₀.memory.config.validate = .ok ())
    (hcheck : c₀.check p = .ok ()) (hc : (nstep p o n c₀ s).1.outcome = .running c)
    (hd : (nstep p o (n + k) c₀ s).1.outcome = .running d) :
    c.memory.Persists d.memory ∧
      ∀ id b, c.memory.get? id = some b → b.isAlive = false →
        ∀ f rest fn i op q, d.stack = f :: rest → d.fetch p f = .ok (fn, .instruction i) →
          i.accessed? = some op → op.eval f.registers = .ok (.ptr q) → q.block? = some id →
            ∃ h, d.step p = .done (.error h) := by
  obtain ⟨hcwf, hc₀⟩ := wf_and_persists_of_nstep (check_eq_ok_iff.1 hcheck).memory hc
  rw [outcome_nstep_add hc] at hd
  obtain ⟨hdwf, hpersists⟩ := wf_and_persists_of_nstep hcwf hd
  refine ⟨hpersists, ?_⟩
  intro id b hb hdead f rest fn i op q hstack hfetch haccess hop hq
  have husable : d.memory.Usable := by
    refine ⟨hdwf, ?_⟩
    rw [hpersists.config_eq, hc₀.config_eq, hvalid]
  -- the block has not changed since
  obtain ⟨b', hb', hbecomes⟩ := hpersists.block id b hb
  obtain rfl := hbecomes.dead hdead
  exact step_of_dead husable hb' hdead hstack hfetch haccess hop hq

end Config

/-! ## A place used again -/

/-- Keeps the address of a block in an integer and in a pointer cast from it, releases the block,
allocates another one and loads through the pointer. -/
def reuseFunction : FunctionDef where
  name := "reuse"
  params := []
  retTy := .int 8
  blocks :=
    [{ label := "entry"
       phis := []
       instructions :=
        [.malloc 0 (.int 8) (.const (.int 8 1)),
          .ptrToInt 1 (.reg 0) (.int 32),
          .intToPtr 2 (.reg 1) (.ptr (.int 8)),
          .free (.reg 0),
          .malloc 3 (.int 8) (.const (.int 8 1)),
          .load 4 (.int 8) (.reg 2)]
       terminator := .ret (.reg 4) }]

def reuseProgram : Program
  | 0 => some reuseFunction
  | _ => none

def reuseStart : Config :=
  ⟨.empty cellConfig, [⟨0, .entry, .empty, none, []⟩], Table.empty.insert 0 0, 1⟩

/-- The state after so many steps. -/
def reuseState (n : Nat) : Config :=
  (nstep reuseProgram Oracle.firstFit n reuseStart ()).1.outcome.state?.getD default

/-- The second block lies where the first one was, and the pointer cast from that address is of no
use. -/
theorem reuse_persists_and_dead :
    (reuseState 4).memory.get? 0 = some ⟨0, .heap, 8, 1, 0, some 1, 8, [.poison], .ofList [8, 16]⟩ ∧
      (reuseState 5).memory.liveBlockContaining? 8 1 = some 1 ∧
      (reuseState 4).memory.Persists (reuseState 5).memory ∧
      ∃ h, (reuseState 5).step reuseProgram = .done (.error h) := by
  have hvalid : reuseStart.memory.config.validate = .ok () := by decide
  have hcheck : reuseStart.check reuseProgram = .ok () := by decide +kernel
  have h4 : (nstep reuseProgram Oracle.firstFit 4 reuseStart ()).1.outcome =
      .running (reuseState 4) := by
    decide +kernel
  have h5 : (nstep reuseProgram Oracle.firstFit (4 + 1) reuseStart ()).1.outcome =
      .running (reuseState 5) := by
    decide +kernel
  have hdead : (reuseState 4).memory.get? 0 =
      some ⟨0, .heap, 8, 1, 0, some 1, 8, [.poison], .ofList [8, 16]⟩ := by decide +kernel
  have hreused : (reuseState 5).memory.liveBlockContaining? 8 1 = some 1 := by decide +kernel
  obtain ⟨hpersists, haccess⟩ := Config.persists_and_dead_of_nstep hvalid hcheck h4 h5
  refine ⟨hdead, hreused, hpersists, haccess 0 _ hdead rfl ((reuseState 5).stack.headD default) []
    reuseFunction (.load 4 (.int 8) (.reg 2)) (.reg 2) (.physical 8 .empty (some 0))
    ?_ ?_ rfl ?_ rfl⟩
  · decide +kernel
  · decide +kernel
  · decide +kernel

end PointerSemantics
