import PointerSemantics.Proofs.Bookkeeping
import PointerSemantics.Proofs.Checked.Words

/-!
# Operators and operands on words

`Checked.prepare` reads the operands of an instruction with words. It does what `Instruction.prepare` does
if the numbers in the registers have no bits beyond their widths and the widths of types are 32-bit numbers
(`Checked.prepare_eq`).
-/

namespace PointerSemantics

namespace Checked

/-! ## Operators -/

/-- Quotients and remainders. -/
def divide (op : BinOp) (width l r : Nat) : Checked Value := do
  let sl ← signed width l
  let sr ← signed width r
  let least ← signed width (← shiftLeft 1 (← sub width 1))
  match op with
  | .udiv => num width (← div l r)
  | .urem => num width (← mod l r)
  | .sdiv =>
    if sl = least ∧ sr = -1 then lift (Exec.wrong .divisionOverflow)
    else num width (asWord (← divSigned sl sr))
  | .srem =>
    if sl = least ∧ sr = -1 then lift (Exec.wrong .divisionOverflow)
    else num width (asWord (← modSigned sl sr))
  | _ => .ok .poison

/-- Operators without division. Sums, differences and products wrap around. -/
def combine (op : BinOp) (width l r : Nat) : Checked Value :=
  match op with
  | .add => num width ((l + r) % Word.count)
  | .sub => num width (asWord ((l : Int) - r))
  | .mul => num width (l * r % Word.count)
  | .and => num width (l &&& r)
  | .or => num width (l ||| r)
  | .xor => num width (l ^^^ r)
  | .shl => if width ≤ r then .ok .poison else do num width (← shiftLeft l r)
  | .lshr => if width ≤ r then .ok .poison else do num width (← shiftRight l r)
  | .ashr =>
    if width ≤ r then .ok .poison
    else do num width (asWord (← shiftRightSigned (← signed width l) r))
  | _ => .ok .poison

def operator (op : BinOp) (width : Nat) (l r : Option Nat) : Checked Value :=
  if op.isDivision then
    match r, l with
    | none, _ => lift (Exec.wrong .poisonDivisor)
    | some 0, _ => lift (Exec.wrong .divisionByZero)
    | some _, none => .ok .poison
    | some r, some l => divide op width l r
  else
    match l, r with
    | some l, some r => combine op width l r
    | _, _ => .ok .poison

/-- A predicate on two integers of one width. -/
def holds (pred : Pred) (width l r : Nat) : Checked Bool := do
  let sl ← signed width l
  let sr ← signed width r
  return match pred with
    | .eq => l == r
    | .ne => l != r
    | .ult => l < r
    | .ule => l ≤ r
    | .ugt => r < l
    | .uge => r ≤ l
    | .slt => sl < sr
    | .sle => sl ≤ sr
    | .sgt => sr < sl
    | .sge => sr ≤ sl

def predicate (pred : Pred) (width : Nat) (l r : Option Nat) : Checked Value :=
  match l, r with
  | some l, some r => do num 1 (← holds pred width l r).toNat
  | _, _ => .ok .poison

section Operators

variable {op : BinOp} {width l r : Nat}

/-- A number other than zero is other than zero when it is read as a signed one. -/
theorem signed_ne_zero (hr : r ≠ 0) (hmask : r < Word.modulus width) : Word.signed width r ≠ 0 := by
  intro hzero
  have hdvd : (Word.modulus width : Int) ∣ r := by
    refine Int.dvd_of_emod_eq_zero ?_
    rw [← Int.bmod_emod, show Int.bmod r (Word.modulus width) = 0 from hzero, Int.zero_emod]
  exact hr (Nat.eq_zero_of_dvd_of_lt (Int.natCast_dvd_natCast.1 hdvd) hmask)

theorem divide_eq (h1 : 1 ≤ width) (h2 : width ≤ maxIntBits) (hr : r ≠ 0) (hmask : r < Word.modulus width) :
    divide op width l r = lift (op.divide width l r) := by
  have hshift : width - 1 < 64 := by unfold maxIntBits at h2; omega
  have hne := signed_ne_zero hr hmask
  unfold divide BinOp.divide minSigned
  simp only [signed_eq, sub_eq h1, shiftLeft_one_eq hshift, ok_bind]
  cases op <;> dsimp only
  case udiv => rw [div_eq hr, ok_bind, num_eq, lift_ok]
  case urem => rw [mod_eq hr, ok_bind, num_eq, lift_ok]
  case sdiv =>
    rw [divSigned_eq hne, ok_bind, num_eq, ofBits_asWord, lift_ite]
    rfl
  case srem =>
    rw [modSigned_eq hne, ok_bind, num_eq, ofBits_asWord, lift_ite]
    rfl
  all_goals rfl

theorem combine_eq (h2 : width ≤ maxIntBits) : combine op width l r = .ok (op.combine width l r) := by
  have hshift : ¬width ≤ r → r < 64 := by unfold maxIntBits at h2; omega
  unfold combine BinOp.combine
  cases op <;> dsimp only
  case add | mul => rw [num_eq, ofBits_mod]
  case sub => rw [num_eq, ofBits_asWord]
  case and | or | xor => rw [num_eq]
  case shl =>
    split
    · rfl
    · next h => rw [shiftLeft_eq (hshift h), ok_bind, num_eq, ofBits_mod]
  case lshr =>
    split
    · rfl
    · next h => rw [shiftRight_eq (hshift h), ok_bind, num_eq]
  case ashr =>
    split
    · rfl
    · next h => rw [signed_eq, ok_bind, shiftRightSigned_eq (hshift h), ok_bind, num_eq, ofBits_asWord]

theorem operator_eq {l r : Option Nat} (h1 : 1 ≤ width) (h2 : width ≤ maxIntBits)
    (hmask : ∀ n, r = some n → n < Word.modulus width) :
    operator op width l r = lift (op.eval width l r) := by
  unfold operator BinOp.eval
  split
  · cases r with
    | none => rfl
    | some r =>
      cases r with
      | zero => rfl
      | succ r =>
        cases l with
        | none => rfl
        | some l => exact divide_eq h1 h2 (Nat.succ_ne_zero r) (hmask _ rfl)
  · cases l with
    | none => rfl
    | some l =>
      cases r with
      | none => rfl
      | some r => exact combine_eq h2

theorem holds_eq (pred : Pred) : holds pred width l r = .ok (pred.holds width l r) := by
  unfold holds
  rw [signed_eq, signed_eq]
  cases pred <;> rfl

theorem predicate_eq (pred : Pred) (l r : Option Nat) :
    predicate pred width l r = .ok (pred.eval width l r) := by
  unfold predicate Pred.eval
  cases l with
  | none => rfl
  | some l =>
    cases r with
    | none => rfl
    | some r =>
      dsimp only
      rw [holds_eq, ok_bind, num_toNat]

end Operators

/-! ## Operands -/

/-- The value of an operand; a constant is cut off at its width. -/
def operand (regs : Table Value) : Operand → Checked Value
  | .const (.int width bits) => num width bits
  | op => lift (op.eval regs)

@[simp] theorem operand_eq (regs : Table Value) (op : Operand) : operand regs op = lift (op.eval regs) := by
  unfold operand
  split
  · exact num_eq _ _
  · rfl

/-- The bytes of `count` elements; `none` if they are no word. -/
def allocSize (regs : Table Value) (ty : Ty) (count : Operand) : Checked (Option Nat) := do
  match ← operand regs count with
  | .num _ bits =>
    let elem ← size ty
    return if bits * elem < Word.count then some (bits * elem) else none
  | .poison => lift (Exec.wrong .poisonSize)
  | v => lift (Exec.typeMismatch s!"allocation count {v.text}")

/-- Reads the operands of an instruction. -/
def prepare (regs : Table Value) : Instruction → Checked Action
  | .binOp _ op ty lhs rhs => Except.map Action.bind do
    let w ← lift ty.intWidth
    let l ← lift ((← operand regs lhs).intOperand w)
    let r ← lift ((← operand regs rhs).intOperand w)
    operator op w l r
  | .icmp _ pred ty lhs rhs => do
    let l ← operand regs lhs
    let r ← operand regs rhs
    match ty with
    | .int _ =>
      let w ← lift ty.intWidth
      let l ← lift (l.intOperand w)
      let r ← lift (r.intOperand w)
      return .bind (← predicate pred w l r)
    | .ptr _ =>
      if pred.isSigned then lift (Exec.typeMismatch "signed comparison of pointers")
      else
        let p ← lift l.ptrOperand
        let q ← lift r.ptrOperand
        match p, q with
        | some p, some q => return .compare pred p q
        | _, _ => return .bind .poison
  | .select _ cond ty onTrue onFalse => Except.map Action.bind do
    let c ← lift ((← operand regs cond).intOperand 1)
    let t ← operand regs onTrue
    let f ← operand regs onFalse
    if !t.hasType ty || !f.hasType ty then lift (Exec.typeMismatch s!"select arms are not {ty.text}")
    else
      match c with
      | none => return .poison
      | some 1 => return t
      | some _ => return f
  | .gep _ inbounds ty ptr idx => do
    let p ← lift (← operand regs ptr).ptrOperand
    let i ←
      match ← operand regs idx with
      | .num width bits => do pure (some (← signed width bits))
      | .poison => pure none
      | v => lift (Exec.typeMismatch s!"gep index {v.text}")
    match p, i with
    | some p, some i => return .move p (i * (← size ty)) inbounds
    | _, _ => return .bind .poison
  | .psub _ ty lhs rhs => do
    match ty.pointee? with
    | none => lift (Exec.typeMismatch s!"psub on non-pointer type {ty.text}")
    | some elem =>
      let l ← lift (← operand regs lhs).ptrOperand
      let r ← lift (← operand regs rhs).ptrOperand
      match l, r with
      | some l, some r => return .distance l r (← size elem)
      | _, _ => return .bind .poison
  | .ptrToInt _ ptr ty => do
    let w ← lift ty.intWidth
    match ← lift (← operand regs ptr).ptrOperand with
    | none => return .bind .poison
    | some p => return .address p w
  | .intToPtr _ val ty => do
    if !ty.isPtr then lift (Exec.typeMismatch s!"inttoptr to {ty.text}")
    else
      match ← operand regs val with
      | .num _ bits => return .cast bits
      | .poison => return .bind .poison
      | v => lift (Exec.typeMismatch s!"inttoptr of {v.text}")
  | .bitcast _ source val target => Except.map Action.bind do
    let v ← operand regs val
    if source.castable target && v.hasType source then return v
    else lift (Exec.typeMismatch s!"bitcast {source.text} {v.text} to {target.text}")
  | .load _ ty ptr => do
    let p ← lift (← operand regs ptr).addressOperand
    return .load ty p
  | .store ty val ptr => do
    let v ← operand regs val
    if !v.hasType ty then lift (Exec.typeMismatch s!"store of {v.text} as {ty.text}")
    else
      let p ← lift (← operand regs ptr).addressOperand
      return .store ty v p
  | .malloc _ ty count => do return .malloc (← allocSize regs ty count)
  | .alloca _ ty count => do return .alloca (← allocSize regs ty count)
  | .free ptr => do
    let p ← lift (← operand regs ptr).addressOperand
    return .free p
  | .call .. => .ok (.bind .poison)

end Checked

/-- The types whose size in bytes matters to an instruction. -/
def Instruction.sizedTypes : Instruction → List Ty
  | gep _ _ ty _ _ | load _ ty _ | store ty _ _ | malloc _ ty _ | alloca _ ty _ => [ty]
  | psub _ ty _ _ => ty.pointee?.toList
  | _ => []

namespace Checked

variable {regs : Table Value}

theorem lt_modulus_of_intOperand {v : Value} {w : Nat} {x : Option Nat} (hv : v.Masked)
    (h : v.intOperand w = .ok x) {n : Nat} (hx : x = some n) : n < Word.modulus w := by
  subst hx
  unfold Value.intOperand at h
  split at h
  · split at h
    · next width bits hw =>
      obtain rfl := Option.some.inj (Except.ok.inj h)
      exact hw ▸ hv _ _ rfl
    · simp at h
  · cases Except.ok.inj h
  · simp at h

theorem allocSize_eq {ty : Ty} (h : ty.bitwidth + 7 < Word.count) (count : Operand) :
    allocSize regs ty count = lift (PointerSemantics.allocSize regs ty count) := by
  unfold allocSize PointerSemantics.allocSize
  rw [operand_eq]
  refine bind_congr fun v _ => ?_
  cases v with
  | num w n =>
    dsimp only
    rw [size_eq h]
    rfl
  | ptr | poison => rfl

/-- Reading operands with words is reading them, if no number has bits beyond its width. -/
theorem prepare_eq {i : Instruction} (hregs : ∀ r v, regs.find? r = some v → v.Masked)
    (hsizes : ∀ ty ∈ i.sizedTypes, ty.bitwidth + 7 < Word.count) :
    prepare regs i = lift (i.prepare regs) := by
  cases i with
  | binOp dst op ty lhs rhs =>
    show Except.map _ _ = lift (Except.map _ _)
    rw [lift_map]
    refine congrArg (Except.map Action.bind) ?_
    simp only [operand_eq]
    refine bind_congr fun w hw => bind_congr fun _ _ => bind_congr fun l _ => ?_
    refine bind_congr fun rv hrv => bind_congr fun r hr => ?_
    obtain ⟨-, h1, h2⟩ := Ty.intWidth_eq_ok_iff.1 hw
    exact operator_eq h1 h2 fun n => lt_modulus_of_intOperand (Operand.masked_eval hregs hrv) hr
  | icmp dst pred ty lhs rhs =>
    simp only [prepare, Instruction.prepare, operand_eq]
    refine bind_congr fun l _ => bind_congr fun r _ => ?_
    cases ty with
    | int w =>
      refine bind_congr fun w _ => bind_congr fun l _ => bind_congr fun r _ => ?_
      rw [predicate_eq]
      rfl
    | ptr t =>
      dsimp only
      split
      · rfl
      · refine bind_congr fun p _ => bind_congr fun q _ => ?_
        cases p <;> cases q <;> rfl
  | select dst cond ty onTrue onFalse =>
    show Except.map _ _ = lift (Except.map _ _)
    rw [lift_map]
    refine congrArg (Except.map Action.bind) ?_
    simp only [operand_eq]
    refine bind_congr fun _ _ => bind_congr fun c _ => bind_congr fun t _ => bind_congr fun f _ => ?_
    split
    · rfl
    · rcases c with _ | _ | _ | n <;> rfl
  | gep dst inbounds ty ptr idx =>
    have hsize := size_eq (hsizes ty List.mem_cons_self)
    simp only [prepare, Instruction.prepare, operand_eq]
    refine bind_congr fun _ _ => bind_congr fun p _ => bind_congr fun v _ => ?_
    cases v with
    | num w n =>
      cases p with
      | none => simp [signed_eq]
      | some p => simp [signed_eq, hsize]
    | poison => cases p <;> rfl
    | ptr q => rfl
  | psub dst ty lhs rhs =>
    simp only [prepare, Instruction.prepare, operand_eq]
    cases hpointee : ty.pointee? with
    | none => rfl
    | some elem =>
      have helem : elem ∈ (Instruction.psub dst ty lhs rhs).sizedTypes := by
        simp [Instruction.sizedTypes, hpointee]
      have hsize := size_eq (hsizes elem helem)
      refine bind_congr fun _ _ => bind_congr fun p _ => bind_congr fun _ _ => bind_congr fun q _ => ?_
      cases p with
      | none => rfl
      | some p =>
        cases q with
        | none => rfl
        | some q =>
          dsimp only
          rw [hsize]
          rfl
  | ptrToInt dst ptr ty =>
    simp only [prepare, Instruction.prepare, operand_eq]
    refine bind_congr fun w _ => bind_congr fun _ _ => bind_congr fun p _ => ?_
    cases p <;> rfl
  | intToPtr dst val ty =>
    simp only [prepare, Instruction.prepare, operand_eq]
    split
    · rfl
    · refine bind_congr fun v _ => ?_
      cases v <;> rfl
  | bitcast dst source val target =>
    show Except.map _ _ = lift (Except.map _ _)
    rw [lift_map]
    refine congrArg (Except.map Action.bind) ?_
    simp only [operand_eq]
    refine bind_congr fun v _ => ?_
    split <;> rfl
  | load dst ty ptr =>
    simp only [prepare, Instruction.prepare, operand_eq]
    exact bind_congr fun _ _ => bind_congr fun p _ => rfl
  | store ty val ptr =>
    simp only [prepare, Instruction.prepare, operand_eq]
    refine bind_congr fun v _ => ?_
    split
    · rfl
    · exact bind_congr fun _ _ => bind_congr fun p _ => rfl
  | malloc dst ty count =>
    simp only [prepare, Instruction.prepare, allocSize_eq (hsizes ty List.mem_cons_self)]
    exact bind_congr fun n _ => rfl
  | alloca dst ty count =>
    simp only [prepare, Instruction.prepare, allocSize_eq (hsizes ty List.mem_cons_self)]
    exact bind_congr fun n _ => rfl
  | free ptr =>
    simp only [prepare, Instruction.prepare, operand_eq]
    exact bind_congr fun _ _ => bind_congr fun p _ => rfl
  | call => rfl

end Checked

end PointerSemantics
