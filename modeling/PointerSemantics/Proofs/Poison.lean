import PointerSemantics.Proofs.Operands
import PointerSemantics.Proofs.Swap.Pairs

/-!
# Values in the place of poison

Where an instruction only computes and succeeds on poison, a value that it takes there could be expected to
do no harm. With one exception this is so: a signed division by `-1` asks a poison dividend nothing and
yields poison, but the least integer as the dividend is undefined behaviour
(`Config.goesWrong_of_bindTop`).
-/

namespace PointerSemantics

/-! ## Operators -/

/-- Where a division succeeds, more known of its operands makes it fail only with a quotient that
overflows. -/
theorem BinOp.overflows_of_eval {op : BinOp} {w : Nat} {l r l' r' : Option Nat} {u : Value} {h : Halt}
    (heval : op.eval w l r = .ok u) (hr : ∀ n, r = some n → r' = some n)
    (heval' : op.eval w l' r' = .error h) : op.Overflows w l' r' ∧ h = .goesWrong .divisionOverflow := by
  obtain ⟨hdiv, hcases⟩ := eval_eq_error heval'
  unfold eval at heval
  rw [if_pos hdiv] at heval
  -- the divisor was known already, and it was no zero
  cases r with
  | none => cases heval
  | some n =>
    obtain rfl := hr n rfl
    rcases hcases with ⟨hnone, -⟩ | ⟨hzero, -⟩ | hover
    · cases hnone
    · obtain rfl := Option.some.inj hzero
      cases heval
    · exact hover

/-! ## Operands -/

section Operands

variable {regs : Table Value} {r : Reg} {u v : Value} {op : Operand}

theorem Operand.eval_reg (regs : Table Value) (r : Reg) :
    (reg r).eval regs = Exec.orStuck (.undefinedRegister r) (regs.find? r) := rfl

/-- An operand other than the register reads what it read. -/
theorem Operand.eval_insert_of_ne (hne : op ≠ .reg r) : op.eval (regs.insert r v) = op.eval regs := by
  cases op with
  | const k => cases k <;> rfl
  | reg s =>
    have hs : s ≠ r := fun hs => hne (congrArg Operand.reg hs)
    rw [eval_reg, eval_reg, Table.find?_insert, if_neg hs]

theorem Operand.eval_insert_self : (Operand.reg r).eval (regs.insert r v) = .ok v := by
  rw [eval_reg, Table.find?_insert, if_pos rfl]
  rfl

/-- An operand that is no poison reads what it read. -/
theorem Operand.eval_insert_of_ne_poison (hr : regs.find? r = some .poison) (hu : op.eval regs = .ok u)
    (hne : u ≠ .poison) : op.eval (regs.insert r v) = .ok u := by
  by_cases hop : op = .reg r
  · subst hop
    rw [eval_reg, hr] at hu
    exact absurd (Except.ok.inj hu).symm hne
  · rw [eval_insert_of_ne hop, hu]

/-- Numbers among the operands stay. -/
theorem Operand.intOperand_insert {w n : Nat} {u' : Value} {x : Option Nat}
    (hr : regs.find? r = some .poison) (hu : op.eval regs = .ok u) (hn : u.intOperand w = .ok (some n))
    (hu' : op.eval (regs.insert r v) = .ok u') (hx : u'.intOperand w = .ok x) : x = some n := by
  have hne : u ≠ .poison := by
    rintro rfl
    cases hn
  obtain rfl := Except.ok.inj ((eval_insert_of_ne_poison hr hu hne).symm.trans hu')
  exact Except.ok.inj (hx.symm.trans hn)

theorem Value.eq_num_of_intOperand {w n : Nat} (h : u.intOperand w = .ok (some n)) : u = .num w n := by
  cases u with
  | num width bits =>
    dsimp only [intOperand] at h
    by_cases hw : width = w
    · rw [if_pos hw] at h
      rw [hw, Option.some.inj (Except.ok.inj h)]
    · rw [if_neg hw] at h
      cases h
  | ptr | poison => cases h

end Operands

namespace Instruction

variable {regs regs' : Table Value} {i : Instruction} {r : Reg} {v : Value} {a : Action} {e : Halt}

/-- The instruction is a signed division whose quotient overflows. -/
def Overflows (regs : Table Value) : Instruction → Prop
  | binOp _ op ty lhs rhs => ∃ w m n, ty = .int w ∧ lhs.eval regs = .ok (.num w m) ∧
      rhs.eval regs = .ok (.num w n) ∧ op.Overflows w (some m) (some n)
  | _ => False

/-- Operands that do not end the execution for their types leave it to the operator. -/
theorem prepare_binOp_eq_error {dst : Reg} {op : BinOp} {ty : Ty} {lhs rhs : Operand}
    (h : (binOp dst op ty lhs rhs).prepare regs = .error e) : e.isOperandFault = true ∨
      ∃ w l x r y, ty.intWidth = .ok w ∧ lhs.eval regs = .ok l ∧ l.intOperand w = .ok x ∧
        rhs.eval regs = .ok r ∧ r.intOperand w = .ok y ∧ op.eval w x y = .error e := by
  have hfault : ∀ h : Halt, h.isOperandFault = true → h.isOperandFault = true := fun _ => id
  have h := Exec.map_eq_error_iff.1 h
  simp only [compute, Exec.bind_eq_error_iff] at h
  rcases h with h | ⟨w, hw, h | ⟨l, hl, h | ⟨x, hx, h | ⟨r, hr, h | ⟨y, hy, h⟩⟩⟩⟩⟩
  · exact .inl (ty.fails_intWidth hfault e h)
  · exact .inl (lhs.fails_eval hfault e h)
  · exact .inl (l.fails_intOperand hfault w e h)
  · exact .inl (rhs.fails_eval hfault e h)
  · exact .inl (r.fails_intOperand hfault w e h)
  · exact .inr ⟨w, l, x, r, y, hw, hl, hx, hr, hy, h⟩

/-- If a value in a register is not accepted that was accepted before, it does not fit where the register is
read. -/
theorem exists_not_fits (h : i.accepts regs = true) (h' : ¬i.accepts (regs.insert r v) = true) :
    ∃ s, (.reg r, s) ∈ i.takes ∧ v.fits s = false := by
  obtain ⟨htyped, hfit⟩ := accepts_iff.1 h
  obtain ⟨⟨op, s⟩, hmem, hnot⟩ : ∃ x ∈ i.takes, ¬fitting (regs.insert r v) x = true := by
    rw [accepts_iff, not_and] at h'
    simpa using h' htyped
  obtain ⟨u, hu, hfits⟩ := fitting_iff.1 (hfit _ hmem)
  by_cases hop : op = .reg r
  · subst hop
    refine ⟨s, hmem, Bool.eq_false_iff.2 fun hv => hnot ?_⟩
    exact fitting_of_eval Operand.eval_insert_self hv
  · refine absurd (fitting_of_eval ?_ hfits) hnot
    rw [Operand.eval_insert_of_ne hop, hu]

/-- Where the operands with poison in a register are good, a value there is a type mismatch only if it does
not fit, and is otherwise undefined only if a quotient overflows. -/
theorem goesWrong_of_prepare_insert {ub : UndefinedBehavior} (hi : i.category.computes = true)
    (hr : regs.find? r = some .poison) (h : i.prepare regs = .ok a)
    (h' : i.prepare (regs.insert r v) = .error (.goesWrong ub)) :
    (∃ text, ub = .typeMismatch text) ∧ (∃ s, (.reg r, s) ∈ i.takes ∧ v.fits s = false) ∨
      ub = .divisionOverflow ∧ i.Overflows (regs.insert r v) := by
  by_cases hfault : (Halt.goesWrong ub).isOperandFault = true
  · have hmismatch : ∃ text, ub = .typeMismatch text := by
      cases ub with
      | typeMismatch text => exact ⟨text, rfl⟩
      | _ => exact nomatch hfault
    refine .inl ⟨hmismatch, exists_not_fits (accepts_of_prepare h) fun haccepts => ?_⟩
    have hfaultless : (Halt.goesWrong ub).isOperandFault = false := faultless_of_accepts haccepts _ h'
    exact absurd (hfault.symm.trans hfaultless) nofun
  · cases i with
    | binOp dst op ty lhs rhs =>
      obtain ⟨w, l, x, q, y, u, hw, hl, hx, hq, hy, hu, -⟩ := prepare_binOp_eq_ok_iff.1 h
      rcases prepare_binOp_eq_error h' with hmismatch | ⟨w', l', x', q', y', hw', hl', hx', hq', hy', hub⟩
      · exact absurd hmismatch hfault
      obtain rfl := Except.ok.inj (hw.symm.trans hw')
      have hdivisor : ∀ n, y = some n → y' = some n := by
        rintro n rfl
        exact Operand.intOperand_insert hr hq hy hq' hy'
      obtain ⟨hover, herror⟩ := BinOp.overflows_of_eval hu hdivisor hub
      refine .inr ⟨by simpa using herror, ?_⟩
      obtain ⟨hop, m, n, rfl, rfl, hmin⟩ := hover
      refine ⟨w, m, n, (Ty.intWidth_eq_ok_iff.1 hw).1, ?_, ?_, hop, m, n, rfl, rfl, hmin⟩
      · rw [hl', Value.eq_num_of_intOperand hx']
      · rw [hq', Value.eq_num_of_intOperand hy']
    | _ =>
      rcases fails_prepare _ _ h' with hmismatch | ⟨-, htrap | hcategory⟩
      · exact absurd hmismatch hfault
      · exact nomatch htrap
      · exact absurd hcategory (Category.not_mem_of_computes hi).1

/-- A quotient that overflows ends the execution, if the types of the division are good. -/
theorem Overflows.prepare_eq (h : i.Overflows regs') (ha : i.prepare regs = .ok a) :
    i.prepare regs' = Exec.wrong .divisionOverflow := by
  cases i with
  | binOp dst op ty lhs rhs =>
    obtain ⟨w, m, n, rfl, hl, hq, hover⟩ := h
    obtain ⟨w', -, -, -, -, -, hw, -⟩ := prepare_binOp_eq_ok_iff.1 ha
    obtain rfl := Ty.int.inj (Ty.intWidth_eq_ok_iff.1 hw).1
    have hoperand : ∀ k, (Value.num w k).intOperand w = .ok (some k) := fun _ => if_pos rfl
    show Except.map Action.bind _ = _
    simp only [compute, hw, hl, hq, hoperand, hover.eval_eq, Exec.ok_bind]
    rfl
  | _ => exact absurd h id

end Instruction

/-! ## Steps -/

namespace Config

/-- The state with a value bound in the innermost frame. -/
def bindTop (c : Config) (r : Reg) (v : Value) : Config :=
  match c.stack with
  | [] => c
  | f :: rest => { c with stack := { f with registers := f.registers.insert r v } :: rest }

variable {p : Program} {c d : Config} {f : Frame} {rest : List Frame} {fn : FunctionDef} {i : Instruction}
  {r : Reg} {v : Value} {e : Halt}

/-- How the step ends the execution, once the value is bound. -/
theorem error_mem_successors_bindTop (hstack : c.stack = f :: rest)
    (hfetch : c.fetch p f = .ok (fn, .instruction i)) (hi : i.category ≠ .call) :
    .error e ∈ (c.bindTop r v).successors p ↔
      .error e ∈ (i.effect c.memory (f.registers.insert r v)).results := by
  have hbind : c.bindTop r v =
      { c with stack := { f with registers := f.registers.insert r v } :: rest } := by
    unfold bindTop
    rw [hstack]
  have hfetch' : (c.bindTop r v).fetch p { f with registers := f.registers.insert r v } =
      .ok (fn, .instruction i) := by
    rw [hbind]
    exact hfetch
  have hmemory : (c.bindTop r v).memory = c.memory := by rw [hbind]
  rw [mem_successors_iff (by rw [hbind]) hfetch' hi, hmemory]
  constructor
  · rintro ⟨x, hx, herror⟩
    obtain rfl := Exec.map_eq_error_iff.1 herror
    exact hx
  · intro he
    exact ⟨_, he, rfl⟩

/-- A step that succeeds with poison in a register goes wrong with another value there only if the value does
not fit, as a type mismatch, or if the step divides and the quotient overflows; and a quotient that overflows
always goes wrong. -/
theorem goesWrong_of_bindTop (hcheck : c.check p = .ok ()) (hconfig : c.memory.config.validate = .ok ())
    (hstack : c.stack = f :: rest) (hfetch : c.fetch p f = .ok (fn, .instruction i))
    (hi : i.category.computes = true) (hd : .ok d ∈ c.successors p)
    (hr : f.registers.find? r = some .poison) (hv : c.memory.valueWf v = true) :
    (∀ ub, .error (.goesWrong ub) ∈ (c.bindTop r v).successors p →
      (∃ text, ub = .typeMismatch text) ∧ (∃ s, (.reg r, s) ∈ i.takes ∧ v.fits s = false) ∨
        ub = .divisionOverflow ∧ i.Overflows (f.registers.insert r v)) ∧
    (i.Overflows (f.registers.insert r v) →
      .error (.goesWrong .divisionOverflow) ∈ (c.bindTop r v).successors p) := by
  have hcall := (Category.not_mem_of_computes hi).2
  have hwf := Config.check_eq_ok_iff.1 hcheck
  have hm : c.memory.Usable := ⟨hwf.memory, hconfig⟩
  have hregs : ∀ s u, (f.registers.insert r v).find? s = some u → c.memory.PointsWell u := by
    intro s u hu
    rw [Table.find?_insert] at hu
    by_cases hs : s = r
    · rw [if_pos hs] at hu
      exact Option.some.inj hu ▸ (Memory.valueWf_iff.1 hv).1
    · rw [if_neg hs] at hu
      exact hwf.pointsWell (hstack ▸ List.mem_cons_self) hu
  obtain ⟨x, hx, hxd⟩ := (mem_successors_iff hstack hfetch hcall).1 hd
  obtain ⟨x, rfl, -⟩ := Exec.map_eq_ok_iff.1 hxd
  obtain ⟨a, ha⟩ := Instruction.exists_prepare_of_mem hx
  constructor
  · intro ub hub
    rw [error_mem_successors_bindTop hstack hfetch hcall] at hub
    rcases Instruction.results_of_computes hm hregs hi hub with ⟨e, he, hprepare⟩ | ⟨x, hx, -⟩
    · obtain rfl := Except.error.inj he
      exact Instruction.goesWrong_of_prepare_insert hi hr ha hprepare
    · cases hx
  · intro hover
    rw [error_mem_successors_bindTop hstack hfetch hcall,
      Instruction.effect_of_prepare_error (hover.prepare_eq ha)]
    exact Ask.mem_results_done.2 rfl

end Config

/-- Divides its argument by `-1`. -/
def negateFunction : FunctionDef where
  name := "negate"
  params := [(0, .int 8)]
  retTy := .int 8
  blocks :=
    [{ label := "entry"
       phis := []
       instructions := [.binOp 1 .sdiv (.int 8) (.reg 0) (.const (.int 8 255))]
       terminator := .ret (.reg 1) }]

def negateProgram : Program
  | 0 => some negateFunction
  | _ => none

/-- The start of that function with poison. -/
def negateStart : Config :=
  ⟨.empty cellConfig, [⟨0, .entry, Table.ofList [(0, .poison)], none, []⟩], Table.empty.insert 0 0, 1⟩

/-- Five in the place of poison is divided, the least integer is not. -/
theorem negate_goesWrong_of_bindTop :
    (∀ ub, .error (.goesWrong ub) ∉ (negateStart.bindTop 0 (.num 8 5)).successors negateProgram) ∧
      .error (.goesWrong .divisionOverflow) ∈
        (negateStart.bindTop 0 (.num 8 128)).successors negateProgram := by
  have hcheck : negateStart.check negateProgram = .ok () := by decide +kernel
  have hconfig : negateStart.memory.config.validate = .ok () := by decide
  have hfetch : negateStart.fetch negateProgram ⟨0, .entry, Table.ofList [(0, .poison)], none, []⟩ =
      .ok (negateFunction, .instruction (.binOp 1 .sdiv (.int 8) (.reg 0) (.const (.int 8 255)))) := rfl
  obtain ⟨d, hd⟩ : ∃ d, .ok d ∈ negateStart.successors negateProgram := ⟨_, List.mem_singleton.2 rfl⟩
  have hthm := fun v hv => Config.goesWrong_of_bindTop (r := 0) (v := v) hcheck hconfig rfl hfetch rfl hd
    rfl hv
  constructor
  · intro ub hub
    rcases (hthm (.num 8 5) (by decide)).1 ub hub with ⟨-, s, hs, hfits⟩ | ⟨-, hover⟩
    · obtain rfl : s = .type (.int 8) := by simpa [Instruction.takes] using hs
      exact absurd hfits (by decide)
    · obtain ⟨w, m, n, hw, hm, -, -, k, -, hk, -, hmin, -⟩ := hover
      obtain rfl := Ty.int.inj hw
      obtain ⟨-, rfl⟩ := Value.num.inj (Except.ok.inj hm)
      obtain rfl := Option.some.inj hk
      exact absurd hmin (by decide)
  · refine (hthm (.num 8 128) (by decide)).2 ⟨8, 128, 255, rfl, rfl, rfl, .inl rfl, 128, 255, rfl, rfl, ?_⟩
    decide

/-- The division is good with poison, and with the least integer, which fits there, it goes wrong. -/
theorem negate_goesWrong_of_least :
    negateStart.check negateProgram = .ok () ∧ negateStart.memory.config.validate = .ok () ∧
      (∃ d, negateStart.successors negateProgram = [.ok d]) ∧
      (Instruction.binOp 1 .sdiv (.int 8) (.reg 0) (.const (.int 8 255))).takes =
        [(.reg 0, .type (.int 8)), (.const (.int 8 255), .type (.int 8))] ∧
      negateStart.memory.valueWf (.num 8 128) = true ∧ (Value.num 8 128).fits (.type (.int 8)) = true ∧
      (negateStart.bindTop 0 (.num 8 128)).successors negateProgram =
        [.error (.goesWrong .divisionOverflow)] := by
  exact ⟨by decide +kernel, by decide, ⟨_, rfl⟩, rfl, by decide, by decide, rfl⟩

end PointerSemantics
