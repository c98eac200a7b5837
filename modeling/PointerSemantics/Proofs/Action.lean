import PointerSemantics.Proofs.Memory.Stability
import PointerSemantics.Swap

/-!
# Instructions as operands and actions

An instruction first reads registers and then works on memory. `Instruction.prepare` is the first half,
which depends on registers only, and `Action.act` the second, which depends on memory only; together
they are its effect (`Instruction.effect_eq_act`). What two instructions do to each other is therefore a
matter of two actions on one memory, once neither reads what the other binds.
-/

namespace PointerSemantics

/-! ## Actions -/

/-- What an instruction does once its operands are known. -/
inductive Action where
  | bind (v : Value)
  | move (p : Pointer) (delta : Int) (inbounds : Bool)
  | distance (p q : Pointer) (size : Nat)
  | address (p : Pointer) (width : Nat)
  | cast (n : Nat)
  | compare (pred : Pred) (p q : Pointer)
  | load (ty : Ty) (p : Pointer)
  | store (ty : Ty) (v : Value) (p : Pointer)
  | malloc (size : Option Nat)
  | alloca (size : Option Nat)
  | free (p : Pointer)

namespace Action

/-- The values that an action which changes nothing may bind. -/
def value (m : Memory) : Action → Ask (Exec Value)
  | bind v => .done (.ok v)
  | move p delta inbounds => .done (.ok (m.movePointer p delta inbounds))
  | distance p q size => .done (.ok (m.pointerDistance p q size))
  | address p width => .done ((Exec.ofMemory (m.address p)).map (Value.ofBits width))
  | cast n => .done (.ok (m.pointerOfInt n))
  | compare pred p q =>
    match m.ptrHolds? pred p q with
    | some b => .done (.ok (.ofBool b))
    | none => .ask (.pointerCompare pred) fun
      | .compare b => .ok (.ofBool b)
      | .null | .place _ => Exec.stuck .invalidChoice
  | load ty p => .done (m.fetchValue ty p)
  | store .. | malloc .. | alloca .. | free .. => .done (.ok .poison)

def act (m : Memory) : Action → Ask (Exec Effect)
  | store ty v p => .done ((m.storeValue ty v p).map .change)
  | malloc size => mallocEffect m size
  | alloca size => allocaEffect m size
  | free p => .done ((m.freePointer p).map .change)
  | a => (a.value m).map (Except.map (.binding m))

/-- The action leaves memory as it is. -/
def isLook : Action → Bool
  | store .. | malloc .. | alloca .. | free .. => false
  | _ => true

theorem act_of_isLook {a : Action} (h : a.isLook = true) (m : Memory) :
    a.act m = (a.value m).map (Except.map (.binding m)) := by
  cases a with
  | store | malloc | alloca | free => simp [isLook] at h
  | bind | move | distance | address | cast | compare | load => rfl

/-- The kind of instructions that the action comes from; a value that is bound as it is counts as pure. -/
def category : Action → Category
  | bind _ => .binOp
  | move .. => .gep
  | distance .. => .psub
  | address .. => .ptrToInt
  | cast _ => .intToPtr
  | compare .. => .icmpPtr
  | load .. => .load
  | store .. => .store
  | malloc _ => .malloc
  | alloca _ => .alloca
  | free _ => .free

/-- The pointers that the action works with. -/
def pointers : Action → List Pointer
  | move p _ _ | address p _ | load _ p | store _ _ p | free p => [p]
  | distance p q _ | compare _ p q => [p, q]
  | bind _ | cast _ | malloc _ | alloca _ => []

end Action

namespace Instruction

/-- Reads the operands of an instruction. -/
def prepare (regs : Table Value) : Instruction → Exec Action
  | icmp _ pred ty lhs rhs => do
    let l ← lhs.eval regs
    let r ← rhs.eval regs
    match ty with
    | .int _ => do
      let w ← ty.intWidth
      let l ← l.intOperand w
      let r ← r.intOperand w
      return .bind (pred.eval w l r)
    | .ptr _ =>
      if pred.isSigned then Exec.typeMismatch "signed comparison of pointers"
      else do
        let p ← l.ptrOperand
        let q ← r.ptrOperand
        match p, q with
        | some p, some q => return .compare pred p q
        | _, _ => return .bind .poison
  | gep _ inbounds ty ptr idx => do
    let p ← (← ptr.eval regs).ptrOperand
    let i ←
      match ← idx.eval regs with
      | .num width bits => pure (some (Word.signed width bits))
      | .poison => pure none
      | v => Exec.typeMismatch s!"gep index {v.text}"
    match p, i with
    | some p, some i => return .move p (i * ty.size) inbounds
    | _, _ => return .bind .poison
  | psub _ ty lhs rhs => do
    match ty.pointee? with
    | none => Exec.typeMismatch s!"psub on non-pointer type {ty.text}"
    | some elem =>
      let l ← (← lhs.eval regs).ptrOperand
      let r ← (← rhs.eval regs).ptrOperand
      match l, r with
      | some l, some r => return .distance l r elem.size
      | _, _ => return .bind .poison
  | ptrToInt _ ptr ty => do
    let w ← ty.intWidth
    match ← (← ptr.eval regs).ptrOperand with
    | none => return .bind .poison
    | some p => return .address p w
  | intToPtr _ val ty => do
    if !ty.isPtr then Exec.typeMismatch s!"inttoptr to {ty.text}"
    else
      match ← val.eval regs with
      | .num _ bits => return .cast bits
      | .poison => return .bind .poison
      | v => Exec.typeMismatch s!"inttoptr of {v.text}"
  | load _ ty ptr => do
    let p ← (← ptr.eval regs).addressOperand
    return .load ty p
  | store ty val ptr => do
    let v ← val.eval regs
    if !v.hasType ty then Exec.typeMismatch s!"store of {v.text} as {ty.text}"
    else
      let p ← (← ptr.eval regs).addressOperand
      return .store ty v p
  | malloc _ ty count => do return .malloc (← allocSize regs ty count)
  | alloca _ ty count => do return .alloca (← allocSize regs ty count)
  | free ptr => do
    let p ← (← ptr.eval regs).addressOperand
    return .free p
  -- the others do not look at memory
  | i => (i.compute (.empty default) regs).map .bind

end Instruction

namespace Instruction

variable {m : Memory} {regs : Table Value}

/-- An instruction reads its operands and then acts on memory. -/
theorem effect_eq_act (i : Instruction) :
    i.effect m regs = Ask.after (i.prepare regs) fun a => a.act m := by
  -- instructions that do not look at memory
  have hbind : ∀ x : Exec Value, Ask.done (x.map (Effect.binding m)) =
      Ask.after (x.map Action.bind) fun a => a.act m := by
    intro x
    rw [Ask.done_map, Ask.after_map]
    rfl
  cases i with
  | binOp | select | bitcast => exact hbind _
  | call => rfl
  | icmp dst pred ty lhs rhs =>
    simp only [effect, prepare, Ask.after_bind]
    refine Ask.after_congr fun l _ => Ask.after_congr fun r _ => ?_
    cases ty with
    | int w => simp only [comparison, Ask.after_bind]; rfl
    | ptr t =>
      unfold comparison
      dsimp only
      split
      · rfl
      · simp only [Ask.after_bind]
        refine Ask.after_congr fun p _ => Ask.after_congr fun q _ => ?_
        cases p with
        | none => rfl
        | some p =>
          cases q with
          | none => rfl
          | some q =>
            show Ask.after (.ok ((m.ptrHolds? pred p q).map Value.ofBool)) _ =
              ((Action.compare pred p q).value m).map (Except.map (Effect.binding m))
            rw [Action.value]
            cases m.ptrHolds? pred p q with
            | some b => rfl
            | none =>
              refine congrArg (Ask.ask _) (funext fun c => ?_)
              cases c <;> rfl
  | gep dst inbounds ty ptr idx =>
    simp only [effect, prepare, compute, Ask.done_map, Ask.after_bind]
    refine Ask.after_congr fun _ _ => Ask.after_congr fun p _ => Ask.after_congr fun v _ => ?_
    cases v <;> cases p <;> rfl
  | psub dst ty lhs rhs =>
    simp only [effect, prepare, compute]
    cases ty.pointee? with
    | none => rfl
    | some elem =>
      simp only [Ask.done_map, Ask.after_bind]
      refine Ask.after_congr fun _ _ => Ask.after_congr fun p _ => Ask.after_congr fun _ _ =>
        Ask.after_congr fun q _ => ?_
      cases p <;> cases q <;> rfl
  | ptrToInt dst ptr ty =>
    simp only [effect, prepare, compute, Ask.done_map, Ask.after_bind]
    refine Ask.after_congr fun w _ => Ask.after_congr fun _ _ => Ask.after_congr fun p _ => ?_
    cases p with
    | none => rfl
    | some p =>
      show Ask.after (Exec.ofMemory (m.address p) >>= fun a => pure (Value.ofBits w a)) _ =
        ((Action.address p w).value m).map (Except.map (Effect.binding m))
      rw [Action.value]
      cases m.address p <;> rfl
  | intToPtr dst val ty =>
    simp only [effect, prepare, compute]
    by_cases hptr : (!ty.isPtr) = true
    · rw [if_pos hptr, if_pos hptr]
      rfl
    · rw [if_neg hptr, if_neg hptr]
      simp only [Ask.done_map, Ask.after_bind]
      refine Ask.after_congr fun v _ => ?_
      cases v <;> rfl
  | load dst ty ptr =>
    simp only [effect, prepare, compute, Ask.done_map, Ask.after_bind]
    refine Ask.after_congr fun _ _ => Ask.after_congr fun p _ => ?_
    show _ = Ask.done ((m.fetchValue ty p).map (Effect.binding m))
    unfold Memory.fetchValue
    simp only [Ask.done_map, Ask.after_bind]
    refine Ask.after_congr fun x _ => Ask.after_congr fun bytes _ => ?_
    cases Value.decode bytes ty with
    | num | poison => rfl
    | ptr q => cases q <;> rfl
  | store ty val ptr =>
    simp only [effect, prepare, Ask.done_bind, Ask.after_bind]
    refine Ask.after_congr fun v _ => ?_
    by_cases hty : (!v.hasType ty) = true
    · rw [if_pos hty, if_pos hty]
      rfl
    · rw [if_neg hty, if_neg hty]
      simp only [Ask.done_bind, Ask.after_bind]
      refine Ask.after_congr fun _ _ => Ask.after_congr fun p _ => ?_
      show _ = Ask.done ((m.storeValue ty v p).map Effect.change)
      unfold Memory.storeValue
      cases m.resolve p ty.size with
      | error h => rfl
      | ok x => exact (Ask.done_map _ _).symm
  | malloc dst ty count =>
    simp only [effect, prepare, Ask.after_bind]
    rfl
  | alloca dst ty count =>
    simp only [effect, prepare, Ask.after_bind]
    rfl
  | free ptr =>
    simp only [effect, prepare, Ask.done_bind, Ask.after_bind]
    refine Ask.after_congr fun _ _ => Ask.after_congr fun p _ => ?_
    exact (Ask.done_map _ _).symm

/-! ## What operands decide -/

theorem eval_congr {regs' : Table Value} {i : Instruction}
    (h : ∀ r ∈ i.uses, regs.find? r = regs'.find? r) :
    ∀ op ∈ i.operands, op.eval regs = op.eval regs' := by
  intro op hop
  cases op with
  | const c => cases c <;> rfl
  | reg r =>
    have hr : r ∈ i.uses := List.mem_filterMap.2 ⟨.reg r, hop, rfl⟩
    show Exec.orStuck _ _ = Exec.orStuck _ _
    rw [h r hr]

set_option linter.unusedSimpArgs false in
/-- Only the registers that an instruction reads matter to it. -/
theorem prepare_congr {regs' : Table Value} {i : Instruction}
    (h : ∀ r ∈ i.uses, regs.find? r = regs'.find? r) : i.prepare regs = i.prepare regs' := by
  have heval := eval_congr h
  cases i <;> simp only [operands, List.forall_mem_cons, List.forall_mem_nil, and_true] at heval <;>
    simp only [prepare, compute, allocSize, heval]

/-- The actions that the operands of an instruction may lead to. -/
inductive Prepares (regs : Table Value) : Instruction → Action → Prop
  | bind {i} (v : Value) : Prepares regs i (.bind v)
  | move {dst inbounds ty ptr idx p} (hp : ptr.eval regs = .ok (.ptr p)) (delta : Int) :
    Prepares regs (.gep dst inbounds ty ptr idx) (.move p delta inbounds)
  | distance {dst ty lhs rhs p q} (hp : lhs.eval regs = .ok (.ptr p))
      (hq : rhs.eval regs = .ok (.ptr q)) (size : Nat) :
    Prepares regs (.psub dst ty lhs rhs) (.distance p q size)
  | address {dst ptr ty p} (hp : ptr.eval regs = .ok (.ptr p)) (width : Nat) :
    Prepares regs (.ptrToInt dst ptr ty) (.address p width)
  | cast {dst val ty} (n : Nat) : Prepares regs (.intToPtr dst val ty) (.cast n)
  | compare {dst pred ty lhs rhs p q} (hty : ty.isPtr = true) (hp : lhs.eval regs = .ok (.ptr p))
      (hq : rhs.eval regs = .ok (.ptr q)) :
    Prepares regs (.icmp dst pred ty lhs rhs) (.compare pred p q)
  | load {dst ty ptr p} (hp : ptr.eval regs = .ok (.ptr p)) :
    Prepares regs (.load dst ty ptr) (.load ty p)
  | store {ty val ptr v p} (hv : val.eval regs = .ok v) (hp : ptr.eval regs = .ok (.ptr p)) :
    Prepares regs (.store ty val ptr) (.store ty v p)
  | malloc {dst ty count} (size : Option Nat) : Prepares regs (.malloc dst ty count) (.malloc size)
  | alloca {dst ty count} (size : Option Nat) : Prepares regs (.alloca dst ty count) (.alloca size)
  | free {ptr p} (hp : ptr.eval regs = .ok (.ptr p)) : Prepares regs (.free ptr) (.free p)

theorem prepares_of_prepare {i : Instruction} {a : Action} (h : i.prepare regs = .ok a) :
    Prepares regs i a := by
  cases i with
  | binOp | select | bitcast =>
    obtain ⟨v, -, rfl⟩ := Exec.map_eq_ok_iff.1 h
    exact .bind v
  | call =>
    obtain rfl := Except.ok.inj h
    exact .bind .poison
  | icmp dst pred ty lhs rhs =>
    simp only [prepare, Exec.bind_eq_ok_iff] at h
    obtain ⟨l, hl, r, hr, h⟩ := h
    cases ty with
    | int w =>
      simp only [Exec.bind_eq_ok_iff] at h
      obtain ⟨_, -, _, -, _, -, h⟩ := h
      obtain rfl := Except.ok.inj h
      exact .bind _
    | ptr t =>
      dsimp only at h
      split at h
      · simp at h
      · simp only [Exec.bind_eq_ok_iff] at h
        obtain ⟨p, hp, q, hq, h⟩ := h
        rcases Value.ptrOperand_eq_ok_iff.1 hp with ⟨p, rfl, rfl⟩ | ⟨-, rfl⟩
        · rcases Value.ptrOperand_eq_ok_iff.1 hq with ⟨q, rfl, rfl⟩ | ⟨-, rfl⟩
          · obtain rfl := Except.ok.inj h
            exact .compare rfl hl hr
          · obtain rfl := Except.ok.inj h
            exact .bind _
        · obtain rfl := Except.ok.inj h
          exact .bind _
  | gep dst inbounds ty ptr idx =>
    simp only [prepare, Exec.bind_eq_ok_iff] at h
    obtain ⟨pv, hpv, p, hp, iv, -, h⟩ := h
    rcases Value.ptrOperand_eq_ok_iff.1 hp with ⟨q, rfl, rfl⟩ | ⟨-, rfl⟩
    · split at h
      · obtain rfl := Except.ok.inj h
        exact .move hpv _
      · obtain rfl := Except.ok.inj h
        exact .bind _
      · simp at h
    · split at h
      · obtain rfl := Except.ok.inj h
        exact .bind _
      · obtain rfl := Except.ok.inj h
        exact .bind _
      · simp at h
  | psub dst ty lhs rhs =>
    simp only [prepare] at h
    split at h
    · simp at h
    · simp only [Exec.bind_eq_ok_iff] at h
      obtain ⟨l, hl, p, hp, r, hr, q, hq, h⟩ := h
      rcases Value.ptrOperand_eq_ok_iff.1 hp with ⟨p, rfl, rfl⟩ | ⟨-, rfl⟩
      · rcases Value.ptrOperand_eq_ok_iff.1 hq with ⟨q, rfl, rfl⟩ | ⟨-, rfl⟩
        · obtain rfl := Except.ok.inj h
          exact .distance hl hr _
        · obtain rfl := Except.ok.inj h
          exact .bind _
      · obtain rfl := Except.ok.inj h
        exact .bind _
  | ptrToInt dst ptr ty =>
    simp only [prepare, Exec.bind_eq_ok_iff] at h
    obtain ⟨w, -, v, hv, p, hp, h⟩ := h
    rcases Value.ptrOperand_eq_ok_iff.1 hp with ⟨p, rfl, rfl⟩ | ⟨-, rfl⟩
    · obtain rfl := Except.ok.inj h
      exact .address hv _
    · obtain rfl := Except.ok.inj h
      exact .bind _
  | intToPtr dst val ty =>
    simp only [prepare] at h
    split at h
    · simp at h
    · obtain ⟨v, -, h⟩ := Exec.bind_eq_ok_iff.1 h
      split at h
      · obtain rfl := Except.ok.inj h
        exact .cast _
      · obtain rfl := Except.ok.inj h
        exact .bind _
      · simp at h
  | load dst ty ptr =>
    simp only [prepare, Exec.bind_eq_ok_iff] at h
    obtain ⟨v, hv, p, hp, h⟩ := h
    obtain rfl := Value.addressOperand_eq_ok_iff.1 hp
    obtain rfl := Except.ok.inj h
    exact .load hv
  | store ty val ptr =>
    simp only [prepare, Exec.bind_eq_ok_iff] at h
    obtain ⟨v, hv, h⟩ := h
    split at h
    · simp at h
    · simp only [Exec.bind_eq_ok_iff] at h
      obtain ⟨pv, hpv, p, hp, h⟩ := h
      obtain rfl := Value.addressOperand_eq_ok_iff.1 hp
      obtain rfl := Except.ok.inj h
      exact .store hv hpv
  | malloc dst ty count =>
    simp only [prepare, Exec.bind_eq_ok_iff] at h
    obtain ⟨size, -, h⟩ := h
    obtain rfl := Except.ok.inj h
    exact .malloc size
  | alloca dst ty count =>
    simp only [prepare, Exec.bind_eq_ok_iff] at h
    obtain ⟨size, -, h⟩ := h
    obtain rfl := Except.ok.inj h
    exact .alloca size
  | free ptr =>
    simp only [prepare, Exec.bind_eq_ok_iff] at h
    obtain ⟨v, hv, p, hp, h⟩ := h
    obtain rfl := Value.addressOperand_eq_ok_iff.1 hp
    obtain rfl := Except.ok.inj h
    exact .free hv

theorem Prepares.category {i : Instruction} {a : Action} (h : Prepares regs i a) :
    a.category = i.category ∨ a.category = .binOp := by
  cases h with
  | bind => exact .inr rfl
  | compare hty => exact .inl (by simp [Action.category, Instruction.category, hty])
  | _ => exact .inl rfl

/-- The pointers of an action come out of registers, or are null. -/
theorem Prepares.pointerWf {i : Instruction} {a : Action} (h : Prepares regs i a)
    (hregs : ∀ r v, regs.find? r = some v → m.PointsWell v) {p : Pointer} (hp : p ∈ a.pointers) :
    m.pointerWf p = true := by
  have hop : ∀ {op : Operand} {q : Pointer}, op.eval regs = .ok (.ptr q) → m.pointerWf q = true :=
    fun hq => Memory.pointsWell_ptr.1 <| Operand.forall_eval hregs (fun _ _ => Memory.pointsWell_num _ _)
      Memory.pointsWell_null Memory.pointsWell_poison hq
  cases h <;> simp only [Action.pointers, List.mem_cons, List.not_mem_nil, or_false] at hp
  case distance hl hr _ =>
    rcases hp with rfl | rfl
    · exact hop hl
    · exact hop hr
  case compare _ hl hr =>
    rcases hp with rfl | rfl
    · exact hop hl
    · exact hop hr
  all_goals
    subst hp
    exact hop ‹_›

end Instruction

/-! ## Operands that end the execution -/

/-- The end says that the program is ill-formed: the execution is stuck, or a type does not fit. -/
def Halt.isIllFormed : Halt → Bool
  | stuck _ | goesWrong (.typeMismatch _) => true
  | _ => false

/-- An operand cannot be read, or it does not have the type it should have. -/
def Halt.isOperandFault : Halt → Bool
  | stuck (.undefinedRegister _) | goesWrong (.typeMismatch _) => true
  | _ => false

theorem Halt.isIllFormed_of_isOperandFault {h : Halt} (hfault : h.isOperandFault = true) :
    h.isIllFormed = true := by
  cases h with
  | stuck reason => rfl
  | goesWrong ub => cases ub <;> simp_all [isOperandFault, isIllFormed]
  | finished | outOfMemory => simp [isOperandFault] at hfault

/-- The computation ends the execution in one of these ways only. -/
def Exec.Fails {α : Type} (P : Halt → Prop) (x : Exec α) : Prop := ∀ h, x = .error h → P h

namespace Exec

variable {α β : Type} {P : Halt → Prop}

theorem fails_ok (a : α) : Fails P (.ok a : Exec α) := nofun

theorem fails_error {h : Halt} (hP : P h) : Fails P (.error h : Exec α) := by
  intro k hk
  obtain rfl := Except.error.inj hk
  exact hP

theorem Fails.bind {x : Exec α} {f : α → Exec β} (hx : x.Fails P) (hf : ∀ a, (f a).Fails P) :
    (x >>= f).Fails P := by
  intro h hh
  rcases bind_eq_error_iff.1 hh with hh | ⟨a, -, hh⟩
  · exact hx h hh
  · exact hf a h hh

theorem Fails.map {x : Exec α} {f : α → β} (hx : x.Fails P) : Fails P (x.map f) :=
  fun h hh => hx h (map_eq_error_iff.1 hh)

end Exec

section Fails

variable {P : Halt → Prop} {regs : Table Value}

theorem Operand.fails_eval (hP : ∀ h : Halt, h.isOperandFault = true → P h) (op : Operand) :
    (op.eval regs).Fails P := by
  unfold eval
  split
  · exact Exec.fails_ok _
  · exact Exec.fails_ok _
  · exact Exec.fails_ok _
  · next r =>
    cases regs.find? r with
    | none => exact Exec.fails_error (hP _ rfl)
    | some v => exact Exec.fails_ok v

theorem Ty.fails_intWidth (hP : ∀ h : Halt, h.isOperandFault = true → P h) (ty : Ty) :
    ty.intWidth.Fails P := by
  unfold intWidth
  split
  · split
    · exact Exec.fails_ok _
    · exact Exec.fails_error (hP _ rfl)
  · exact Exec.fails_error (hP _ rfl)

theorem Value.fails_intOperand (hP : ∀ h : Halt, h.isOperandFault = true → P h) (v : Value) (w : Nat) :
    (v.intOperand w).Fails P := by
  unfold intOperand
  split
  · split
    · exact Exec.fails_ok _
    · exact Exec.fails_error (hP _ rfl)
  · exact Exec.fails_ok _
  · exact Exec.fails_error (hP _ rfl)

theorem Value.fails_ptrOperand (hP : ∀ h : Halt, h.isOperandFault = true → P h) (v : Value) :
    v.ptrOperand.Fails P := by
  unfold ptrOperand
  split
  · exact Exec.fails_ok _
  · exact Exec.fails_ok _
  · exact Exec.fails_error (hP _ rfl)

theorem Value.fails_addressOperand (hP : ∀ h : Halt, h.isOperandFault = true → P h)
    (hwrong : ∀ ub, P (.goesWrong ub)) (v : Value) : v.addressOperand.Fails P := by
  refine (fails_ptrOperand hP v).bind fun p => ?_
  cases p with
  | none => exact Exec.fails_error (hwrong _)
  | some p => exact Exec.fails_ok p

theorem fails_allocSize (hP : ∀ h : Halt, h.isOperandFault = true → P h)
    (hwrong : ∀ ub, P (.goesWrong ub)) (ty : Ty) (count : Operand) :
    (allocSize regs ty count).Fails P := by
  refine (Operand.fails_eval hP count).bind fun v => ?_
  cases v with
  | num w n => exact Exec.fails_ok _
  | poison => exact Exec.fails_error (hwrong _)
  | ptr p => exact Exec.fails_error (hP _ rfl)

/-- An integer operator ends the execution only as undefined behaviour, and only if it divides. -/
theorem BinOp.fails_eval (op : BinOp) (w : Nat) (l r : Option Nat)
    (hP : op.isDivision = true → ∀ ub, P (.goesWrong ub)) : (op.eval w l r).Fails P := by
  unfold eval
  split
  · next hdiv =>
    have hwrong := hP hdiv
    split
    · exact Exec.fails_error (hwrong _)
    · exact Exec.fails_error (hwrong _)
    · exact Exec.fails_ok _
    · unfold divide
      dsimp only
      split
      · exact Exec.fails_ok _
      · exact Exec.fails_ok _
      · split
        · exact Exec.fails_error (hwrong _)
        · exact Exec.fails_ok _
      · split
        · exact Exec.fails_error (hwrong _)
        · exact Exec.fails_ok _
      · exact Exec.fails_ok _
  · split
    · exact Exec.fails_ok _
    · exact Exec.fails_ok _

/-- Operands that can be read and have their types end the execution only as undefined behaviour, and only
those of divisions, accesses and allocations do. -/
theorem Instruction.fails_prepare (i : Instruction) : (i.prepare regs).Fails fun h =>
    h.isOperandFault = true ∨ (∃ ub, h = .goesWrong ub) ∧
      (i.mayTrap = true ∨ i.category ∈ [.load, .store, .malloc, .alloca, .free]) := by
  have hfault : ∀ {Q : Prop} (h : Halt), h.isOperandFault = true →
      h.isOperandFault = true ∨ (∃ ub, h = .goesWrong ub) ∧ Q := fun _ h => .inl h
  cases i with
  | binOp dst op ty lhs rhs =>
    refine Exec.Fails.map ?_
    refine (Ty.fails_intWidth hfault ty).bind fun w => ?_
    refine (Operand.fails_eval hfault lhs).bind fun _ => (Value.fails_intOperand hfault _ w).bind fun l => ?_
    refine (Operand.fails_eval hfault rhs).bind fun _ => (Value.fails_intOperand hfault _ w).bind fun r => ?_
    exact op.fails_eval w l r fun hdiv ub => .inr ⟨⟨ub, rfl⟩, .inl hdiv⟩
  | icmp dst pred ty lhs rhs =>
    refine (Operand.fails_eval hfault lhs).bind fun l => (Operand.fails_eval hfault rhs).bind fun r => ?_
    cases ty with
    | int w =>
      refine (Ty.fails_intWidth hfault _).bind fun w => ?_
      refine (Value.fails_intOperand hfault _ w).bind fun _ => ?_
      exact (Value.fails_intOperand hfault _ w).bind fun _ => Exec.fails_ok _
    | ptr t =>
      dsimp only
      split
      · exact Exec.fails_error (hfault _ rfl)
      · refine (Value.fails_ptrOperand hfault l).bind fun p => ?_
        refine (Value.fails_ptrOperand hfault r).bind fun q => ?_
        cases p <;> cases q <;> exact Exec.fails_ok _
  | select dst cond ty onTrue onFalse =>
    refine Exec.Fails.map ?_
    refine (Operand.fails_eval hfault cond).bind fun _ => (Value.fails_intOperand hfault _ 1).bind fun c => ?_
    refine (Operand.fails_eval hfault onTrue).bind fun t => ?_
    refine (Operand.fails_eval hfault onFalse).bind fun f => ?_
    split
    · exact Exec.fails_error (hfault _ rfl)
    · split <;> exact Exec.fails_ok _
  | gep dst inbounds ty ptr idx =>
    refine (Operand.fails_eval hfault ptr).bind fun _ => (Value.fails_ptrOperand hfault _).bind fun p => ?_
    refine (Operand.fails_eval hfault idx).bind fun v => ?_
    cases v with
    | num w n => cases p <;> exact Exec.fails_ok _
    | poison => cases p <;> exact Exec.fails_ok _
    | ptr q => exact Exec.fails_error (hfault _ rfl)
  | psub dst ty lhs rhs =>
    simp only [prepare]
    cases ty.pointee? with
    | none => exact Exec.fails_error (hfault _ rfl)
    | some elem =>
      refine (Operand.fails_eval hfault lhs).bind fun _ => (Value.fails_ptrOperand hfault _).bind fun p => ?_
      refine (Operand.fails_eval hfault rhs).bind fun _ => (Value.fails_ptrOperand hfault _).bind fun q => ?_
      cases p <;> cases q <;> exact Exec.fails_ok _
  | ptrToInt dst ptr ty =>
    refine (Ty.fails_intWidth hfault ty).bind fun w => ?_
    refine (Operand.fails_eval hfault ptr).bind fun _ => (Value.fails_ptrOperand hfault _).bind fun p => ?_
    cases p <;> exact Exec.fails_ok _
  | intToPtr dst val ty =>
    simp only [prepare]
    split
    · exact Exec.fails_error (hfault _ rfl)
    · refine (Operand.fails_eval hfault val).bind fun v => ?_
      cases v with
      | num w n => exact Exec.fails_ok _
      | poison => exact Exec.fails_ok _
      | ptr p => exact Exec.fails_error (hfault _ rfl)
  | bitcast dst source val target =>
    refine Exec.Fails.map ?_
    refine (Operand.fails_eval hfault val).bind fun v => ?_
    split
    · exact Exec.fails_ok _
    · exact Exec.fails_error (hfault _ rfl)
  | call => exact Exec.fails_ok _
  | load dst ty ptr =>
    refine (Operand.fails_eval hfault ptr).bind fun _ => ?_
    refine (Value.fails_addressOperand hfault (fun ub => .inr ⟨⟨ub, rfl⟩, .inr ?_⟩) _).bind fun _ =>
      Exec.fails_ok _
    simp [category]
  | store ty val ptr =>
    refine (Operand.fails_eval hfault val).bind fun v => ?_
    split
    · exact Exec.fails_error (hfault _ rfl)
    · refine (Operand.fails_eval hfault ptr).bind fun _ => ?_
      refine (Value.fails_addressOperand hfault (fun ub => .inr ⟨⟨ub, rfl⟩, .inr ?_⟩) _).bind fun _ =>
        Exec.fails_ok _
      simp [category]
  | malloc dst ty count =>
    refine (fails_allocSize hfault (fun ub => .inr ⟨⟨ub, rfl⟩, .inr ?_⟩) ty count).bind fun _ =>
      Exec.fails_ok _
    simp [category]
  | alloca dst ty count =>
    refine (fails_allocSize hfault (fun ub => .inr ⟨⟨ub, rfl⟩, .inr ?_⟩) ty count).bind fun _ =>
      Exec.fails_ok _
    simp [category]
  | free ptr =>
    refine (Operand.fails_eval hfault ptr).bind fun _ => ?_
    refine (Value.fails_addressOperand hfault (fun ub => .inr ⟨⟨ub, rfl⟩, .inr ?_⟩) _).bind fun _ =>
      Exec.fails_ok _
    simp [category]

end Fails

end PointerSemantics
