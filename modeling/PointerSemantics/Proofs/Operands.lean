import PointerSemantics.Proofs.Swap.Instructions

/-!
# Instructions with operands of the right types

`Instruction.takes` lists the operands of an instruction with what their values have to be, and
`Instruction.isTyped` says that its own types and predicate fit together. Where both hold of the values in
registers, the instruction accepts them (`Instruction.accepts`). What can be prepared is accepted
(`Instruction.accepts_of_prepare`), and what is accepted does not end the execution for a type or for a
register without a value (`Instruction.faultless_of_accepts`).

Poison fits everywhere: where it is undefined behaviour, it is so for another reason than its type.
-/

namespace PointerSemantics

/-! ## What operands have to be -/

/-- What the value of an operand has to be. -/
inductive Shape where
  | type (ty : Ty)
  /-- A pointer of any type -/
  | pointer
  /-- An integer of any width -/
  | integer
deriving DecidableEq

/-- Poison has every shape. -/
def Value.fits (v : Value) : Shape → Bool
  | .type ty => v.hasType ty
  | .pointer => v.ptr?.isSome || v.isPoison
  | .integer => v.num?.isSome || v.isPoison

namespace Instruction

/-- The operands of an instruction with what they have to be, in order. Arguments of calls are taken as they
are. -/
def takes : Instruction → List (Operand × Shape)
  | binOp _ _ ty lhs rhs | icmp _ _ ty lhs rhs => [(lhs, .type ty), (rhs, .type ty)]
  | select _ cond ty onTrue onFalse => [(cond, .type (.int 1)), (onTrue, .type ty), (onFalse, .type ty)]
  | gep _ _ _ ptr idx => [(ptr, .pointer), (idx, .integer)]
  | psub _ _ lhs rhs => [(lhs, .pointer), (rhs, .pointer)]
  | ptrToInt _ ptr _ | load _ _ ptr | free ptr => [(ptr, .pointer)]
  | intToPtr _ val _ => [(val, .integer)]
  | bitcast _ source val _ => [(val, .type source)]
  | store ty val ptr => [(val, .type ty), (ptr, .pointer)]
  | malloc _ _ count | alloca _ _ count => [(count, .integer)]
  | call .. => []

/-- The types and the predicate of an instruction fit together, whatever its operands are. -/
def isTyped : Instruction → Bool
  | binOp _ _ ty .. | ptrToInt _ _ ty => ty.isInt && ty.isValid
  | icmp _ pred ty .. => if ty.isPtr then !pred.isSigned else ty.isValid
  | psub _ ty .. | intToPtr _ _ ty => ty.isPtr
  | bitcast _ source _ target => source.castable target
  | _ => true

/-- The operand has a value of the shape. -/
def fitting (regs : Table Value) (x : Operand × Shape) : Bool :=
  match x.1.eval regs with
  | .ok v => v.fits x.2
  | .error _ => false

/-- The instruction can be executed on the values in the registers without a fault of their types. -/
def accepts (i : Instruction) (regs : Table Value) : Bool := i.isTyped && i.takes.all (fitting regs)

end Instruction

/-! ## Values of a shape -/

section Shapes

variable {v : Value} {regs : Table Value} {op : Operand} {s : Shape} {w : Nat} {ty t : Ty}

theorem Value.fits_of_intOperand {x : Option Nat} (h : v.intOperand w = .ok x) :
    v.fits (.type (.int w)) = true := by
  cases v with
  | num width bits =>
    unfold intOperand at h
    by_cases hw : width = w
    · simp [fits, hasType, hw]
    · simp [hw] at h
  | ptr p => simp [intOperand] at h
  | poison => rfl

theorem Value.exists_intOperand (h : v.fits (.type (.int w)) = true) : ∃ x, v.intOperand w = .ok x := by
  cases v with
  | num width bits =>
    have hw : width = w := beq_iff_eq.1 h
    exact ⟨some bits, if_pos hw⟩
  | ptr p => exact nomatch h
  | poison => exact ⟨none, rfl⟩

theorem Value.fits_of_ptrOperand {p : Option Pointer} (h : v.ptrOperand = .ok p) :
    v.fits .pointer = true := by
  rcases ptrOperand_eq_ok_iff.1 h with ⟨q, rfl, -⟩ | ⟨rfl, -⟩
  · rfl
  · rfl

theorem Value.exists_ptrOperand (h : v.fits .pointer = true) : ∃ p, v.ptrOperand = .ok p := by
  cases v with
  | num width bits => exact nomatch h
  | ptr p => exact ⟨some p, rfl⟩
  | poison => exact ⟨none, rfl⟩

/-- What a pointer points to does not matter to its type. -/
theorem Value.fits_ptr (v : Value) (t : Ty) : v.fits (.type (.ptr t)) = v.fits .pointer := by
  cases v <;> rfl

theorem Instruction.fitting_iff :
    fitting regs (op, s) = true ↔ ∃ v, op.eval regs = .ok v ∧ v.fits s = true := by
  unfold fitting
  cases op.eval regs <;> simp

theorem Instruction.fitting_of_eval (hv : op.eval regs = .ok v) (hfits : v.fits s = true) :
    fitting regs (op, s) = true := fitting_iff.2 ⟨v, hv, hfits⟩

theorem Ty.isValid_of_intWidth (h : ty.intWidth = .ok w) : ty = .int w ∧ (ty.isInt && ty.isValid) = true := by
  obtain ⟨rfl, h1, h2⟩ := intWidth_eq_ok_iff.1 h
  exact ⟨rfl, by simp [isInt, isValid, h1, h2]⟩

theorem Ty.intWidth_of_isValid (h : (int w).isValid = true) : (int w).intWidth = .ok w := by
  obtain ⟨h1, h2⟩ : 1 ≤ w ∧ w ≤ maxIntBits := by simpa [isValid] using h
  exact intWidth_eq_ok_iff.2 ⟨rfl, h1, h2⟩

theorem Ty.exists_intWidth (h : (ty.isInt && ty.isValid) = true) :
    ∃ w, ty = .int w ∧ ty.intWidth = .ok w := by
  cases ty with
  | int w => exact ⟨w, rfl, intWidth_of_isValid h⟩
  | ptr t => exact nomatch h

end Shapes

/-! ## What can be prepared is accepted -/

namespace Instruction

variable {regs : Table Value} {i : Instruction} {a : Action}

theorem accepts_iff : i.accepts regs = true ↔ i.isTyped = true ∧ ∀ x ∈ i.takes, fitting regs x = true := by
  simp [accepts]

theorem fitting_of_addressOperand {op : Operand} {v : Value} {p : Pointer} (hv : op.eval regs = .ok v)
    (hp : v.addressOperand = .ok p) : fitting regs (op, .pointer) = true := by
  obtain rfl := Value.addressOperand_eq_ok_iff.1 hp
  exact fitting_of_eval hv rfl

theorem fitting_of_allocSize {ty : Ty} {count : Operand} {size : Option Nat}
    (h : allocSize regs ty count = .ok size) : fitting regs (count, .integer) = true := by
  unfold allocSize at h
  obtain ⟨v, hv, h⟩ := Exec.bind_eq_ok_iff.1 h
  cases v with
  | num width bits => exact fitting_of_eval hv rfl
  | ptr | poison => simp at h

theorem prepare_binOp_eq_ok_iff {dst : Reg} {op : BinOp} {ty : Ty} {lhs rhs : Operand} :
    (binOp dst op ty lhs rhs).prepare regs = .ok a ↔ ∃ w l x r y u, ty.intWidth = .ok w ∧
      lhs.eval regs = .ok l ∧ l.intOperand w = .ok x ∧ rhs.eval regs = .ok r ∧ r.intOperand w = .ok y ∧
      op.eval w x y = .ok u ∧ a = .bind u := by
  show Except.map Action.bind _ = _ ↔ _
  rw [Exec.map_eq_ok_iff]
  simp only [compute, Exec.bind_eq_ok_iff]
  constructor
  · rintro ⟨u, ⟨w, hw, l, hl, x, hx, r, hr, y, hy, hu⟩, rfl⟩
    exact ⟨w, l, x, r, y, u, hw, hl, hx, hr, hy, hu, rfl⟩
  · rintro ⟨w, l, x, r, y, u, hw, hl, hx, hr, hy, hu, rfl⟩
    exact ⟨u, ⟨w, hw, l, hl, x, hx, r, hr, y, hy, hu⟩, rfl⟩

/-- Operands that an instruction can work with have their types. -/
theorem accepts_of_prepare (h : i.prepare regs = .ok a) : i.accepts regs = true := by
  rw [accepts_iff]
  cases i with
  | binOp dst op ty lhs rhs =>
    obtain ⟨w, l, _, r, _, -, hw, hl, hlw, hr, hrw, -⟩ := prepare_binOp_eq_ok_iff.1 h
    obtain ⟨rfl, htyped⟩ := Ty.isValid_of_intWidth hw
    refine ⟨htyped, ?_⟩
    simp [takes, fitting_of_eval hl (Value.fits_of_intOperand hlw),
      fitting_of_eval hr (Value.fits_of_intOperand hrw)]
  | icmp dst pred ty lhs rhs =>
    simp only [prepare, Exec.bind_eq_ok_iff] at h
    obtain ⟨l, hl, r, hr, h⟩ := h
    cases ty with
    | int w =>
      simp only [Exec.bind_eq_ok_iff] at h
      obtain ⟨w', hw, _, hlw, _, hrw, -⟩ := h
      obtain ⟨hty, htyped⟩ := Ty.isValid_of_intWidth hw
      obtain rfl := Ty.int.inj hty
      refine ⟨htyped, ?_⟩
      simp [takes, fitting_of_eval hl (Value.fits_of_intOperand hlw),
        fitting_of_eval hr (Value.fits_of_intOperand hrw)]
    | ptr t =>
      dsimp only at h
      by_cases hsigned : pred.isSigned = true
      · simp [hsigned] at h
      · rw [if_neg hsigned] at h
        simp only [Exec.bind_eq_ok_iff] at h
        obtain ⟨_, hp, _, hq, -⟩ := h
        refine ⟨by simpa [isTyped, Ty.isPtr] using hsigned, ?_⟩
        simp [takes, fitting_of_eval hl ((l.fits_ptr t).trans (Value.fits_of_ptrOperand hp)),
          fitting_of_eval hr ((r.fits_ptr t).trans (Value.fits_of_ptrOperand hq))]
  | select dst cond ty onTrue onFalse =>
    obtain ⟨v, h, -⟩ := Exec.map_eq_ok_iff.1 h
    simp only [compute, Exec.bind_eq_ok_iff] at h
    obtain ⟨c, hc, _, hcw, t, ht, f, hf, h⟩ := h
    by_cases harms : (!t.hasType ty || !f.hasType ty) = true
    · simp [harms] at h
    · obtain ⟨htty, hfty⟩ : t.fits (.type ty) = true ∧ f.fits (.type ty) = true := by
        simpa [Value.fits] using harms
      refine ⟨rfl, ?_⟩
      simp [takes, fitting_of_eval hc (Value.fits_of_intOperand hcw), fitting_of_eval ht htty,
        fitting_of_eval hf hfty]
  | gep dst inbounds ty ptr idx =>
    simp only [prepare, Exec.bind_eq_ok_iff] at h
    obtain ⟨p, hp, _, hptr, n, hn, h⟩ := h
    have hidx : n.fits .integer = true := by
      cases n with
      | num | poison => rfl
      | ptr q => simp at h
    refine ⟨rfl, ?_⟩
    simp [takes, fitting_of_eval hp (Value.fits_of_ptrOperand hptr), fitting_of_eval hn hidx]
  | psub dst ty lhs rhs =>
    cases ty with
    | int w => simp [prepare, Ty.pointee?] at h
    | ptr t =>
      simp only [prepare, Ty.pointee?, Exec.bind_eq_ok_iff] at h
      obtain ⟨l, hl, _, hp, r, hr, _, hq, -⟩ := h
      refine ⟨rfl, ?_⟩
      simp [takes, fitting_of_eval hl (Value.fits_of_ptrOperand hp),
        fitting_of_eval hr (Value.fits_of_ptrOperand hq)]
  | ptrToInt dst ptr ty =>
    simp only [prepare, Exec.bind_eq_ok_iff] at h
    obtain ⟨w, hw, v, hv, _, hp, -⟩ := h
    refine ⟨(Ty.isValid_of_intWidth hw).2, ?_⟩
    simp [takes, fitting_of_eval hv (Value.fits_of_ptrOperand hp)]
  | intToPtr dst val ty =>
    cases ty with
    | int w => simp [prepare, Ty.isPtr] at h
    | ptr t =>
      obtain ⟨v, hv, h⟩ := Exec.bind_eq_ok_iff.1 (show (val.eval regs >>= _) = _ from h)
      have hval : v.fits .integer = true := by
        cases v with
        | num | poison => rfl
        | ptr q => simp at h
      refine ⟨rfl, ?_⟩
      simp [takes, fitting_of_eval hv hval]
  | bitcast dst source val target =>
    obtain ⟨_, h, -⟩ := Exec.map_eq_ok_iff.1 h
    obtain ⟨v, hv, h⟩ := Exec.bind_eq_ok_iff.1 h
    by_cases hcast : (source.castable target && v.hasType source) = true
    · obtain ⟨hcastable, hty⟩ : _ ∧ v.fits (.type source) = true := Bool.and_eq_true_iff.1 hcast
      refine ⟨hcastable, ?_⟩
      simp [takes, fitting_of_eval hv hty]
    · simp [hcast] at h
  | load dst ty ptr =>
    simp only [prepare, Exec.bind_eq_ok_iff] at h
    obtain ⟨v, hv, p, hp, -⟩ := h
    refine ⟨rfl, ?_⟩
    simp [takes, fitting_of_addressOperand hv hp]
  | store ty val ptr =>
    simp only [prepare, Exec.bind_eq_ok_iff] at h
    obtain ⟨v, hv, h⟩ := h
    by_cases hty : v.hasType ty = true
    · have hfits : v.fits (.type ty) = true := hty
      simp only [hty, Bool.not_true, Bool.false_eq_true, if_false, Exec.bind_eq_ok_iff] at h
      obtain ⟨q, hq, p, hp, -⟩ := h
      refine ⟨rfl, ?_⟩
      simp [takes, fitting_of_eval hv hfits, fitting_of_addressOperand hq hp]
    · simp [hty] at h
  | malloc dst ty count | alloca dst ty count =>
    simp only [prepare, Exec.bind_eq_ok_iff] at h
    obtain ⟨size, hsize, -⟩ := h
    refine ⟨rfl, ?_⟩
    simp [takes, fitting_of_allocSize hsize]
  | free ptr =>
    simp only [prepare, Exec.bind_eq_ok_iff] at h
    obtain ⟨v, hv, p, hp, -⟩ := h
    refine ⟨rfl, ?_⟩
    simp [takes, fitting_of_addressOperand hv hp]
  | call dst callee args => exact ⟨rfl, by simp [takes]⟩

end Instruction

/-! ## What is accepted has no fault of its types -/

/-- The quotient of two integers is the one number too great for their width. -/
def BinOp.Overflows (op : BinOp) (w : Nat) (l r : Option Nat) : Prop :=
  (op = .sdiv ∨ op = .srem) ∧
    ∃ m n, l = some m ∧ r = some n ∧ Word.signed w m = minSigned w ∧ Word.signed w n = -1

/-- An operator is undefined only if it divides: by poison, by zero, or with a quotient that overflows. -/
theorem BinOp.eval_eq_error {op : BinOp} {w : Nat} {l r : Option Nat} {h : Halt}
    (heval : op.eval w l r = .error h) : op.isDivision = true ∧
      (r = none ∧ h = .goesWrong .poisonDivisor ∨ r = some 0 ∧ h = .goesWrong .divisionByZero ∨
        op.Overflows w l r ∧ h = .goesWrong .divisionOverflow) := by
  unfold eval at heval
  by_cases hdiv : op.isDivision = true
  · refine ⟨hdiv, ?_⟩
    rw [if_pos hdiv] at heval
    split at heval
    · exact .inl ⟨rfl, (Except.error.inj heval).symm⟩
    · exact .inr (.inl ⟨rfl, (Except.error.inj heval).symm⟩)
    · cases heval
    · next n m _ =>
      refine .inr (.inr ?_)
      have hover : ∀ {v : Value}, (op = .sdiv ∨ op = .srem) →
          (if Word.signed w m = minSigned w ∧ Word.signed w n = -1 then Exec.wrong .divisionOverflow
            else .ok v) = .error h →
          op.Overflows w (some m) (some n) ∧ h = .goesWrong .divisionOverflow := by
        intro v hop herror
        by_cases hmin : Word.signed w m = minSigned w ∧ Word.signed w n = -1
        · rw [if_pos hmin] at herror
          exact ⟨⟨hop, m, n, rfl, rfl, hmin⟩, (Except.error.inj herror).symm⟩
        · rw [if_neg hmin] at herror
          cases herror
      cases op with
      | sdiv => exact hover (.inl rfl) heval
      | srem => exact hover (.inr rfl) heval
      | _ => cases heval
  · rw [if_neg hdiv] at heval
    split at heval
    · cases heval
    · cases heval

/-- A quotient that overflows is undefined. -/
theorem BinOp.Overflows.eval_eq {op : BinOp} {w : Nat} {l r : Option Nat} (h : op.Overflows w l r) :
    op.eval w l r = Exec.wrong .divisionOverflow := by
  obtain ⟨hop, m, n, rfl, rfl, hmin⟩ := h
  have hdivide : op.divide w m n = Exec.wrong .divisionOverflow := by
    rcases hop with rfl | rfl
    · exact if_pos hmin
    · exact if_pos hmin
  have hdiv : op.isDivision = true := by rcases hop with rfl | rfl <;> rfl
  unfold eval
  rw [if_pos hdiv]
  cases n with
  | zero =>
    have hzero : Word.signed w 0 = 0 := Int.zero_bmod
    rw [hzero] at hmin
    exact absurd hmin.2 (by decide)
  | succ n => exact hdivide

/-- The execution does not end for a type, or for a register without a value. -/
def Exec.IsFaultless {α : Type} (x : Exec α) : Prop := x.Fails fun h => h.isOperandFault = false

namespace Instruction

variable {regs : Table Value} {i : Instruction}

theorem faultless_eval (op : BinOp) (w : Nat) (l r : Option Nat) : (op.eval w l r).IsFaultless := by
  intro h heval
  rcases (BinOp.eval_eq_error heval).2 with ⟨-, rfl⟩ | ⟨-, rfl⟩ | ⟨-, rfl⟩ <;> rfl

theorem faultless_addressOperand {v : Value} (h : v.fits .pointer = true) :
    v.addressOperand.IsFaultless := by
  cases v with
  | num width bits => exact nomatch h
  | ptr p => exact Exec.fails_ok p
  | poison => exact Exec.fails_error rfl

theorem faultless_allocSize {ty : Ty} {count : Operand} (h : fitting regs (count, .integer) = true) :
    (allocSize regs ty count).IsFaultless := by
  obtain ⟨v, hv, hfits⟩ := fitting_iff.1 h
  unfold allocSize
  rw [hv, Exec.ok_bind]
  cases v with
  | num width bits => exact Exec.fails_ok _
  | ptr p => exact nomatch hfits
  | poison => exact Exec.fails_error rfl

/-- Operands that have their types are no reason for the execution to end. -/
theorem faultless_of_accepts (h : i.accepts regs = true) : (i.prepare regs).IsFaultless := by
  obtain ⟨htyped, hfit⟩ := accepts_iff.1 h
  cases i with
  | binOp dst op ty lhs rhs =>
    obtain ⟨w, rfl, hw⟩ := Ty.exists_intWidth htyped
    simp only [takes, List.forall_mem_cons, fitting_iff] at hfit
    obtain ⟨⟨l, hl, hlfits⟩, ⟨r, hr, hrfits⟩, -⟩ := hfit
    obtain ⟨x, hx⟩ := Value.exists_intOperand hlfits
    obtain ⟨y, hy⟩ := Value.exists_intOperand hrfits
    refine Exec.Fails.map ?_
    simp only [compute, hw, hl, hr, hx, hy, Exec.ok_bind]
    exact faultless_eval op w x y
  | icmp dst pred ty lhs rhs =>
    simp only [takes, List.forall_mem_cons, fitting_iff] at hfit
    obtain ⟨⟨l, hl, hlfits⟩, ⟨r, hr, hrfits⟩, -⟩ := hfit
    cases ty with
    | int w =>
      have hw := Ty.intWidth_of_isValid htyped
      obtain ⟨x, hx⟩ := Value.exists_intOperand hlfits
      obtain ⟨y, hy⟩ := Value.exists_intOperand hrfits
      simp only [prepare, hw, hl, hr, hx, hy, Exec.ok_bind]
      exact Exec.fails_ok _
    | ptr t =>
      have hunsigned : ¬pred.isSigned = true := by simpa [isTyped, Ty.isPtr] using htyped
      obtain ⟨p, hp⟩ := Value.exists_ptrOperand ((l.fits_ptr t).symm.trans hlfits)
      obtain ⟨q, hq⟩ := Value.exists_ptrOperand ((r.fits_ptr t).symm.trans hrfits)
      simp only [prepare, hl, hr, hp, hq, Exec.ok_bind, if_neg hunsigned]
      cases p <;> cases q <;> exact Exec.fails_ok _
  | select dst cond ty onTrue onFalse =>
    simp only [takes, List.forall_mem_cons, fitting_iff] at hfit
    obtain ⟨⟨c, hc, hcfits⟩, ⟨t, ht, htfits⟩, ⟨f, hf, hffits⟩, -⟩ := hfit
    obtain ⟨x, hx⟩ := Value.exists_intOperand hcfits
    have htty : t.hasType ty = true := htfits
    have hfty : f.hasType ty = true := hffits
    refine Exec.Fails.map ?_
    simp only [compute, hc, ht, hf, hx, Exec.ok_bind, htty, hfty]
    rcases x with _ | _ | _ | n <;> exact Exec.fails_ok _
  | gep dst inbounds ty ptr idx =>
    simp only [takes, List.forall_mem_cons, fitting_iff] at hfit
    obtain ⟨⟨v, hv, hvfits⟩, ⟨n, hn, hnfits⟩, -⟩ := hfit
    obtain ⟨p, hp⟩ := Value.exists_ptrOperand hvfits
    simp only [prepare, hv, hn, hp, Exec.ok_bind]
    cases n with
    | num w bits => cases p <;> exact Exec.fails_ok _
    | ptr q => exact absurd hnfits Bool.false_ne_true
    | poison => cases p <;> exact Exec.fails_ok _
  | psub dst ty lhs rhs =>
    cases ty with
    | int w => exact absurd htyped Bool.false_ne_true
    | ptr t =>
      simp only [takes, List.forall_mem_cons, fitting_iff] at hfit
      obtain ⟨⟨l, hl, hlfits⟩, ⟨r, hr, hrfits⟩, -⟩ := hfit
      obtain ⟨p, hp⟩ := Value.exists_ptrOperand hlfits
      obtain ⟨q, hq⟩ := Value.exists_ptrOperand hrfits
      simp only [prepare, Ty.pointee?, hl, hr, hp, hq, Exec.ok_bind]
      cases p <;> cases q <;> exact Exec.fails_ok _
  | ptrToInt dst ptr ty =>
    obtain ⟨w, -, hw⟩ := Ty.exists_intWidth htyped
    simp only [takes, List.forall_mem_cons, fitting_iff] at hfit
    obtain ⟨⟨v, hv, hvfits⟩, -⟩ := hfit
    obtain ⟨p, hp⟩ := Value.exists_ptrOperand hvfits
    simp only [prepare, hw, hv, hp, Exec.ok_bind]
    cases p <;> exact Exec.fails_ok _
  | intToPtr dst val ty =>
    cases ty with
    | int w => exact absurd htyped Bool.false_ne_true
    | ptr t =>
      simp only [takes, List.forall_mem_cons, fitting_iff] at hfit
      obtain ⟨⟨v, hv, hvfits⟩, -⟩ := hfit
      simp only [prepare, Ty.isPtr, hv, Exec.ok_bind]
      cases v with
      | num w bits => exact Exec.fails_ok _
      | ptr q => exact absurd hvfits Bool.false_ne_true
      | poison => exact Exec.fails_ok _
  | bitcast dst source val target =>
    simp only [takes, List.forall_mem_cons, fitting_iff] at hfit
    obtain ⟨⟨v, hv, hvfits⟩, -⟩ := hfit
    have hcast : (source.castable target && v.hasType source) = true :=
      Bool.and_eq_true_iff.2 ⟨htyped, hvfits⟩
    refine Exec.Fails.map ?_
    simp only [compute, hv, Exec.ok_bind, hcast]
    exact Exec.fails_ok v
  | load dst ty ptr =>
    simp only [takes, List.forall_mem_cons, fitting_iff] at hfit
    obtain ⟨⟨v, hv, hvfits⟩, -⟩ := hfit
    simp only [prepare, hv, Exec.ok_bind]
    exact (faultless_addressOperand hvfits).bind fun _ => Exec.fails_ok _
  | store ty val ptr =>
    simp only [takes, List.forall_mem_cons, fitting_iff] at hfit
    obtain ⟨⟨v, hv, hvfits⟩, ⟨q, hq, hqfits⟩, -⟩ := hfit
    have hty : v.hasType ty = true := hvfits
    simp only [prepare, hv, hty, hq, Exec.ok_bind]
    exact (faultless_addressOperand hqfits).bind fun _ => Exec.fails_ok _
  | malloc dst ty count | alloca dst ty count =>
    exact (faultless_allocSize (hfit (count, _) (by simp [takes]))).bind fun _ => Exec.fails_ok _
  | free ptr =>
    simp only [takes, List.forall_mem_cons, fitting_iff] at hfit
    obtain ⟨⟨v, hv, hvfits⟩, -⟩ := hfit
    simp only [prepare, hv, Exec.ok_bind]
    exact (faultless_addressOperand hvfits).bind fun _ => Exec.fails_ok _
  | call => exact Exec.fails_ok _

end Instruction

/-! ## Instructions that compute -/

/-- Kinds that bind a value and leave memory as it is, other than loads. -/
def Category.computes : Category → Bool
  | intToPtr | icmpPtr => true
  | k => k.isPure

theorem Category.not_mem_of_computes {k : Category} (h : k.computes = true) :
    k ∉ [load, store, malloc, alloca, free] ∧ k ≠ call := by
  cases k with
  | load | store | malloc | alloca | free | call => exact nomatch h
  | _ => exact ⟨by decide, nofun⟩

theorem Action.isLook_of_computes {a : Action} (h : a.category.computes = true) :
    a.isLook = true ∧ a.category ≠ .load := by
  cases a with
  | load | store | malloc | alloca | free => exact nomatch h
  | bind | move | distance | address | cast | compare => exact ⟨rfl, nofun⟩

/-- An instruction that computes ends the execution only for its operands, and leaves memory as it is. -/
theorem Instruction.results_of_computes {m : Memory} {regs : Table Value} {i : Instruction}
    {r : Exec Effect} (hm : m.Usable) (hregs : ∀ r v, regs.find? r = some v → m.PointsWell v)
    (hi : i.category.computes = true) (hr : r ∈ (i.effect m regs).results) :
    (∃ e, r = .error e ∧ i.prepare regs = .error e) ∨ ∃ x, r = .ok x ∧ x.memory = m := by
  cases hprepare : i.prepare regs with
  | error e =>
    rw [effect_of_prepare_error hprepare, Ask.mem_results_done] at hr
    exact .inl ⟨e, hr, rfl⟩
  | ok a =>
    have hact : i.effect m regs = a.act m := congrFun (effect_of_prepare hprepare) m
    rw [hact] at hr
    have ha := prepares_of_prepare hprepare
    have hcomputes : a.category.computes = true := by
      rcases ha.category with h | h
      · rwa [h]
      · rw [h]
        rfl
    obtain ⟨hlook, hload⟩ := Action.isLook_of_computes hcomputes
    cases r with
    | error e =>
      -- of what looks at memory only a load could fail
      exact absurd (Action.error_of_isLook hm (fun _ => ha.pointerWf hregs) hlook hr).1 hload
    | ok x =>
      obtain ⟨v, -, rfl⟩ := (Action.mem_act_of_isLook hlook).1 hr
      exact .inr ⟨_, rfl, rfl⟩

end PointerSemantics
