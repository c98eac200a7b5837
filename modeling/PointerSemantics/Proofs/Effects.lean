import PointerSemantics.Proofs.Exec
import PointerSemantics.Proofs.Pointers

/-!
# What an instruction can do

`Instruction.Produces` says how the value that an instruction binds came about and why it has the type
of the instruction, `Instruction.Does` what a successful instruction did to memory: nothing, one write,
one release, or one allocation. Everything
that holds of all effects is shown by going through these cases; no other proof about invariants opens
the definitions of the instructions.
-/

namespace PointerSemantics

variable {m : Memory} {regs : Table Value}

/-! ## Operands -/

theorem Operand.eval_cases {op : Operand} {v : Value} (h : op.eval regs = .ok v) :
    (∃ r, op = .reg r ∧ regs.find? r = some v) ∨ (∃ w n, op = .const (.int w n) ∧ v = .ofBits w n) ∨
      v = .null ∨ v = .poison := by
  unfold eval at h
  split at h
  · exact .inr (.inl ⟨_, _, rfl, (Except.ok.inj h).symm⟩)
  · exact .inr (.inr (.inl (Except.ok.inj h).symm))
  · exact .inr (.inr (.inr (Except.ok.inj h).symm))
  · exact .inl ⟨_, rfl, Exec.orStuck_eq_ok_iff.1 h⟩

/-- What holds of the values in registers and of constants holds of what an operand evaluates to. -/
theorem Operand.forall_eval {P : Value → Prop} {op : Operand} {v : Value}
    (hregs : ∀ r v, regs.find? r = some v → P v) (hbits : ∀ w n, P (.ofBits w n)) (hnull : P .null)
    (hpoison : P .poison) (h : op.eval regs = .ok v) : P v := by
  rcases eval_cases h with ⟨r, -, hr⟩ | ⟨w, n, -, rfl⟩ | rfl | rfl
  · exact hregs r v hr
  · exact hbits w n
  · exact hnull
  · exact hpoison

theorem Ty.intWidth_eq_ok_iff {ty : Ty} {w : Nat} :
    ty.intWidth = .ok w ↔ ty = .int w ∧ 1 ≤ w ∧ w ≤ maxIntBits := by
  cases ty with
  | ptr t => simp [intWidth]
  | int n =>
    simp only [intWidth]
    split
    · next h =>
      simp only [Except.ok.injEq, Ty.int.injEq]
      constructor
      · rintro rfl; exact ⟨rfl, h⟩
      · exact fun h' => h'.1
    · next h =>
      simp only [Exec.typeMismatch_ne_ok, Ty.int.injEq, false_iff]
      rintro ⟨rfl, h'⟩
      exact h h'

theorem Value.ptrOperand_eq_ok_iff {v : Value} {p : Option Pointer} :
    v.ptrOperand = .ok p ↔ (∃ q, v = .ptr q ∧ p = some q) ∨ v = .poison ∧ p = none := by
  cases v with
  | num w n => simp [ptrOperand]
  | ptr q => simp [ptrOperand, eq_comm]
  | poison => simp [ptrOperand, eq_comm]

theorem Value.addressOperand_eq_ok_iff {v : Value} {p : Pointer} :
    v.addressOperand = .ok p ↔ v = .ptr p := by
  cases v <;> simp [addressOperand, ptrOperand]

/-! ## Numbers -/

/-- The value is a number of a valid width, without further bits. -/
def Value.IsNumber (w : Nat) (v : Value) : Prop := (∃ n, v = .num w n) ∧ v.NumberWf

theorem Value.isNumber_ofBits {w n : Nat} (h1 : 1 ≤ w) (h2 : w ≤ maxIntBits) :
    (ofBits w n).IsNumber w := ⟨⟨_, rfl⟩, numberWf_ofBits h1 h2⟩

theorem Value.isNumber_ofInt {w : Nat} {i : Int} (h1 : 1 ≤ w) (h2 : w ≤ maxIntBits) :
    (ofInt w i).IsNumber w := ⟨⟨_, rfl⟩, numberWf_ofInt h1 h2⟩

theorem Value.isNumber_ofBool (b : Bool) : (ofBool b).IsNumber 1 := ⟨⟨_, rfl⟩, numberWf_ofBool b⟩

theorem BinOp.divide_cases {op : BinOp} {w l r : Nat} {v : Value} (h1 : 1 ≤ w)
    (h2 : w ≤ maxIntBits) (h : op.divide w l r = .ok v) : v = .poison ∨ v.IsNumber w := by
  cases op <;> simp only [divide] at h <;> try split at h
  all_goals first
    | simp at h; done
    | obtain rfl := Except.ok.inj h
      first
        | exact .inl rfl
        | exact .inr (Value.isNumber_ofBits h1 h2)
        | exact .inr (Value.isNumber_ofInt h1 h2)

theorem BinOp.combine_cases (op : BinOp) {w : Nat} (l r : Nat) (h1 : 1 ≤ w) (h2 : w ≤ maxIntBits) :
    op.combine w l r = .poison ∨ (op.combine w l r).IsNumber w := by
  cases op <;> unfold combine <;> dsimp only <;> try split
  all_goals first
    | exact .inl rfl
    | exact .inr (Value.isNumber_ofBits h1 h2)
    | exact .inr (Value.isNumber_ofInt h1 h2)

theorem BinOp.eval_cases {op : BinOp} {w : Nat} {l r : Option Nat} {v : Value} (h1 : 1 ≤ w)
    (h2 : w ≤ maxIntBits) (h : op.eval w l r = .ok v) : v = .poison ∨ v.IsNumber w := by
  unfold eval at h
  split at h
  · split at h
    · simp at h
    · simp at h
    · exact .inl (Except.ok.inj h).symm
    · exact divide_cases h1 h2 h
  · split at h
    · obtain rfl := Except.ok.inj h
      exact combine_cases op _ _ h1 h2
    · exact .inl (Except.ok.inj h).symm

theorem pointerDistance_cases (p q : Pointer) (size : Nat) :
    m.pointerDistance p q size = .poison ∨ (m.pointerDistance p q size).IsNumber pointerBits := by
  unfold Memory.pointerDistance
  dsimp only
  split
  · exact .inl rfl
  · split
    · exact .inr (Value.isNumber_ofInt (by decide) (by decide))
    · exact .inl rfl

/-! ## Values -/

/-- The type of what an instruction binds. A call binds what its callee returns, of whatever type. -/
def Instruction.valueTy? : Instruction → Option Ty
  | binOp _ _ ty _ _ | select _ _ ty _ _ | ptrToInt _ _ ty | intToPtr _ _ ty | load _ ty _ => some ty
  | bitcast _ _ _ target => some target
  | icmp .. => some (.int 1)
  | psub .. => some (.int pointerBits)
  | gep _ _ ty _ _ | malloc _ ty _ | alloca _ ty _ => some (.ptr ty)
  | store .. | free .. | call .. => none

/-- Where the value that an instruction binds comes from, and why it has the type of the instruction. -/
inductive Instruction.Produces (m : Memory) (regs : Table Value) : Instruction → Value → Prop
  | operand {i op v ty} (hop : op ∈ i.operands) (hv : op.eval regs = .ok v)
      (hi : i.valueTy? = some ty) (hty : v.hasType ty = true) : Produces m regs i v
  | poison {i} : Produces m regs i .poison
  | null {i ty} (hi : i.valueTy? = some (.ptr ty)) : Produces m regs i .null
  | number {i v w} (hi : i.valueTy? = some (.int w)) (hv : v.IsNumber w) : Produces m regs i v
  | move {dst inbounds ty ptr idx p} (hp : ptr.eval regs = .ok (.ptr p)) (delta : Int) :
    Produces m regs (.gep dst inbounds ty ptr idx) (m.movePointer p delta inbounds)
  | cast {dst val ty} (hty : ty.isPtr = true) (n : Nat) :
    Produces m regs (.intToPtr dst val ty) (m.pointerOfInt n)
  | load {dst ty ptr id offset bytes} (hr : m.read id offset ty.size = .ok bytes) :
    Produces m regs (.load dst ty ptr) (m.loaded (Value.decode bytes ty))

/-- Integers of one width have the same type, and so have pointers for all that a value knows. -/
theorem Value.hasType_of_castable {v : Value} {source target : Ty}
    (h : source.castable target = true) (hv : v.hasType source = true) :
    v.hasType target = true := by
  cases source with
  | int a =>
    cases target with
    | int b =>
      obtain rfl : a = b := by simpa [Ty.castable] using h
      exact hv
    | ptr t => simp [Ty.castable] at h
  | ptr s =>
    cases target with
    | int b => simp [Ty.castable] at h
    | ptr t =>
      cases v with
      | num w n => simp at hv
      | ptr p => rfl
      | poison => rfl

namespace Instruction

theorem produces_of_number {i : Instruction} {v : Value} {w : Nat} (hi : i.valueTy? = some (.int w))
    (h : v = .poison ∨ v.IsNumber w) : i.Produces m regs v := by
  rcases h with rfl | h
  · exact .poison
  · exact .number hi h

/-- What an instruction binds has its type. -/
theorem Produces.hasType {i : Instruction} {v : Value} {ty : Ty} (h : i.Produces m regs v)
    (hi : i.valueTy? = some ty) : v.hasType ty = true := by
  cases h with
  | operand _ _ hi' hty =>
    obtain rfl := Option.some.inj (hi'.symm.trans hi)
    exact hty
  | poison => rfl
  | null hi' =>
    obtain rfl := Option.some.inj (hi'.symm.trans hi)
    rfl
  | number hi' hv =>
    obtain rfl := Option.some.inj (hi'.symm.trans hi)
    obtain ⟨⟨n, rfl⟩, -⟩ := hv
    exact Value.hasType_num.2 rfl
  | move _ delta =>
    obtain rfl := Option.some.inj hi
    exact Memory.hasType_movePointer _ delta _ rfl
  | cast hty n =>
    obtain rfl := Option.some.inj hi
    exact Memory.hasType_pointerOfInt n hty
  | load _ =>
    obtain rfl := Option.some.inj hi
    exact Memory.hasType_loaded _ _

/-- What the value of a computing instruction can be. -/
theorem compute_produces {i : Instruction} {v : Value} (h : i.compute m regs = .ok v) :
    i.Produces m regs v := by
  cases i with
  | binOp dst op ty lhs rhs =>
    simp only [compute, Exec.bind_eq_ok_iff] at h
    obtain ⟨w, hw, _, _, _, _, _, _, _, _, h⟩ := h
    obtain ⟨rfl, h1, h2⟩ := Ty.intWidth_eq_ok_iff.1 hw
    exact produces_of_number rfl (BinOp.eval_cases h1 h2 h)
  | select dst cond ty onTrue onFalse =>
    simp only [compute, Exec.bind_eq_ok_iff] at h
    obtain ⟨_, _, c, _, t, ht, f, hf, h⟩ := h
    split at h
    · simp at h
    · next harms =>
      simp only [Bool.or_eq_true, Bool.not_eq_true', not_or, Bool.not_eq_false] at harms
      split at h
      · obtain rfl := Except.ok.inj h
        exact .poison
      · obtain rfl := Except.ok.inj h
        exact .operand (List.mem_cons_of_mem _ List.mem_cons_self) ht rfl harms.1
      · obtain rfl := Except.ok.inj h
        exact .operand (List.mem_cons_of_mem _ (List.mem_cons_of_mem _ List.mem_cons_self)) hf rfl
          harms.2
  | gep dst inbounds ty ptr idx =>
    simp only [compute, Exec.bind_eq_ok_iff] at h
    obtain ⟨pv, hpv, p, hp, iv, _, h⟩ := h
    rcases Value.ptrOperand_eq_ok_iff.1 hp with ⟨q, rfl, rfl⟩ | ⟨-, rfl⟩
    · split at h
      · obtain rfl := Except.ok.inj h
        exact .move hpv _
      · obtain rfl := Except.ok.inj h
        exact .poison
      · simp at h
    · split at h
      · obtain rfl := Except.ok.inj h
        exact .poison
      · obtain rfl := Except.ok.inj h
        exact .poison
      · simp at h
  | psub dst ty lhs rhs =>
    simp only [compute] at h
    split at h
    · simp at h
    · simp only [Exec.bind_eq_ok_iff] at h
      obtain ⟨_, _, l, _, _, _, r, _, h⟩ := h
      split at h
      · obtain rfl := Except.ok.inj h
        exact produces_of_number rfl (pointerDistance_cases _ _ _)
      · obtain rfl := Except.ok.inj h
        exact .poison
  | ptrToInt dst ptr ty =>
    simp only [compute, Exec.bind_eq_ok_iff] at h
    obtain ⟨w, hw, _, _, p, _, h⟩ := h
    obtain ⟨rfl, h1, h2⟩ := Ty.intWidth_eq_ok_iff.1 hw
    split at h
    · obtain rfl := Except.ok.inj h
      exact .poison
    · simp only [Exec.bind_eq_ok_iff] at h
      obtain ⟨addr, -, h⟩ := h
      obtain rfl := Except.ok.inj h
      exact .number rfl (Value.isNumber_ofBits h1 h2)
  | intToPtr dst val ty =>
    simp only [compute] at h
    split at h
    · simp at h
    · next hptr =>
      simp only [Exec.bind_eq_ok_iff] at h
      obtain ⟨v, -, h⟩ := h
      split at h
      · obtain rfl := Except.ok.inj h
        exact .cast (by simpa using hptr) _
      · obtain rfl := Except.ok.inj h
        exact .poison
      · simp at h
  | bitcast dst source val target =>
    simp only [compute, Exec.bind_eq_ok_iff] at h
    obtain ⟨v, hv, h⟩ := h
    split at h
    · next hcast =>
      rw [Bool.and_eq_true] at hcast
      obtain rfl := Except.ok.inj h
      exact .operand List.mem_cons_self hv rfl (Value.hasType_of_castable hcast.1 hcast.2)
    · simp at h
  | load dst ty ptr =>
    simp only [compute, Exec.bind_eq_ok_iff] at h
    obtain ⟨_, _, p, _, ⟨id, offset⟩, _, bytes, hr, h⟩ := h
    rw [Exec.ofMemory_eq_ok_iff] at hr
    have hload : (Instruction.load dst ty ptr).Produces m regs (m.loaded (Value.decode bytes ty)) :=
      .load hr
    split at h
    · next addr visited owner hd =>
      obtain rfl := Except.ok.inj h
      rwa [hd] at hload
    · next v hne =>
      obtain rfl := Except.ok.inj h
      rwa [Memory.loaded.eq_2 _ _ hne] at hload
  | icmp | store | malloc | alloca | free | call =>
    obtain rfl := Except.ok.inj h
    exact .poison

/-! ## Effects -/

/-- What a successful instruction may have done. -/
inductive Does (m : Memory) (regs : Table Value) : Instruction → Effect → Prop
  | bind {i v} (hv : i.Produces m regs v) : Does m regs i (.binding m v)
  | store {ty val ptr v id offset m'} (hv : val.eval regs = .ok v) (hty : v.hasType ty = true)
      (hw : m.write id offset (v.encode ty) = .ok m') : Does m regs (.store ty val ptr) (.change m')
  | free {ptr id b m'} (hp : ptr.eval regs = .ok (.ptr (.logical id 0))) (hb : m.get? id = some b)
      (hkind : b.kind = .heap) (hf : m.free id = .ok m') : Does m regs (.free ptr) (.change m')
  | malloc {dst ty count req id m'} (hkind : req.kind = .heap) (hinit : req.init = none)
      (ha : m.allocate req = .ok (id, m')) :
    Does m regs (.malloc dst ty count) (.binding m' (.ptr (.logical id 0)))
  | alloca {dst ty count req id m'} (hkind : req.kind = .stack) (hinit : req.init = none)
      (ha : m.allocate req = .ok (id, m')) :
    Does m regs (.alloca dst ty count) ⟨m', some (.ptr (.logical id 0)), some id⟩

/-- What an instruction binds was produced from what there is, or points to the start of a block that was
allocated. -/
theorem Does.value_cases {i : Instruction} {e : Effect} {v : Value} (h : i.Does m regs e)
    (hv : e.value = some v) : i.Produces m regs v ∧ e.memory = m ∨
      ∃ req id, m.allocate req = .ok (id, e.memory) ∧ v = .ptr (.logical id 0) := by
  cases h with
  | bind h => exact .inl ⟨Option.some.inj hv ▸ h, rfl⟩
  | store | free => simp [Effect.change] at hv
  | malloc _ _ ha | alloca _ _ ha => exact .inr ⟨_, _, ha, (Option.some.inj hv).symm⟩

theorem Does.hasType {i : Instruction} {e : Effect} {v : Value} {ty : Ty} (h : i.Does m regs e)
    (hi : i.valueTy? = some ty) (hv : e.value = some v) : v.hasType ty = true := by
  cases h with
  | bind h =>
    obtain rfl := Option.some.inj hv
    exact h.hasType hi
  | store | free => simp [valueTy?] at hi
  | malloc | alloca =>
    obtain rfl := Option.some.inj hv
    obtain rfl := Option.some.inj hi
    rfl

end Instruction

theorem Memory.place_eq_ok {kind : BlockKind} {size : Option Nat} {candidates : List Nat}
    {pick : Nat} {id : BlockId} {m' : Memory} (h : m.place kind size candidates pick = .ok (id, m')) :
    ∃ req : AllocRequest, req.kind = kind ∧ req.init = none ∧ m.allocate req = .ok (id, m') := by
  unfold place at h
  split at h
  · simp at h
  · simp at h
  · split at h
    · simp at h
    · exact ⟨_, rfl, rfl, Exec.ofMemory_eq_ok_iff.1 h⟩

theorem Memory.freePointer_eq_ok {p : Pointer} {m' : Memory} (h : m.freePointer p = .ok m') :
    ∃ id b, p = .logical id 0 ∧ m.get? id = some b ∧ b.isAlive = true ∧ b.kind = .heap ∧
      m.free id = .ok m' := by
  unfold freePointer at h
  split at h
  · simp at h
  · simp at h
  · next id offset =>
    split at h
    · simp at h
    · next b hb =>
      split at h
      · simp at h
      · next halive =>
        split at h
        · simp at h
        · next hoffset =>
          split at h
          · simp at h
          · next hkind =>
            obtain rfl : offset = 0 := Decidable.not_not.1 hoffset
            refine ⟨id, b, rfl, hb, by simpa using halive, ?_, Exec.ofMemory_eq_ok_iff.1 h⟩
            cases hk : b.kind with
            | heap => rfl
            | stack => exact absurd hk hkind

/-- A comparison that is decided yields poison or a truth value. -/
theorem comparison_cases {pred : Pred} {ty : Ty} {l r v : Value}
    (h : comparison m pred ty l r = .ok (some v)) : v = .poison ∨ v.IsNumber 1 := by
  unfold comparison at h
  split at h
  · simp only [Exec.bind_eq_ok_iff] at h
    obtain ⟨w, -, l, -, r, -, h⟩ := h
    obtain rfl := Option.some.inj (Except.ok.inj h)
    unfold Pred.eval
    split
    · exact .inr (Value.isNumber_ofBool _)
    · exact .inl rfl
  · split at h
    · simp at h
    · simp only [Exec.bind_eq_ok_iff] at h
      obtain ⟨p, -, q, -, h⟩ := h
      split at h
      · obtain ⟨b, -, rfl⟩ := Option.map_eq_some_iff.1 (Except.ok.inj h)
        exact .inr (Value.isNumber_ofBool b)
      · obtain rfl := Option.some.inj (Except.ok.inj h)
        exact .inl rfl

namespace Instruction

theorem mallocEffect_does {dst : Reg} {ty : Ty} {count : Operand} {size : Option Nat} {e : Effect}
    (h : (mallocEffect m size).Yields (.ok e)) : (malloc dst ty count).Does m regs e := by
  unfold mallocEffect at h
  split at h
  · obtain rfl := Except.ok.inj h
    exact .bind (.null rfl)
  · obtain ⟨c, hc⟩ := h
    cases c with
    | null =>
      obtain rfl := Except.ok.inj hc
      exact .bind (.null rfl)
    | place i =>
      simp only [Exec.bind_eq_ok_iff] at hc
      obtain ⟨⟨id, m'⟩, hp, hc⟩ := hc
      obtain rfl := Except.ok.inj hc
      obtain ⟨req, hkind, hinit, ha⟩ := Memory.place_eq_ok hp
      exact .malloc hkind hinit ha
    | compare b => simp at hc

theorem allocaEffect_does {dst : Reg} {ty : Ty} {count : Operand} {size : Option Nat} {e : Effect}
    (h : (allocaEffect m size).Yields (.ok e)) : (alloca dst ty count).Does m regs e := by
  obtain ⟨c, hc⟩ := h
  cases c with
  | place i =>
    simp only [Exec.bind_eq_ok_iff] at hc
    obtain ⟨⟨id, m'⟩, hp, hc⟩ := hc
    obtain rfl := Except.ok.inj hc
    obtain ⟨req, hkind, hinit, ha⟩ := Memory.place_eq_ok hp
    exact .alloca hkind hinit ha
  | null => simp at hc
  | compare b => simp at hc

/-- Every success of an instruction, whatever its question was answered, is one of the cases. -/
theorem effect_does {i : Instruction} {e : Effect} (h : (i.effect m regs).Yields (.ok e)) :
    i.Does m regs e := by
  have hcompute : ∀ {j : Instruction},
      Except.map (Effect.binding m) (j.compute m regs) = .ok e → j.Does m regs e := by
    intro j hj
    obtain ⟨v, hv, rfl⟩ := Exec.map_eq_ok_iff.1 hj
    exact .bind (compute_produces hv)
  cases i with
  | icmp dst pred ty lhs rhs =>
    obtain ⟨r, hr, h⟩ := Ask.yields_after.1 h
    cases r with
    | some v =>
      obtain rfl := Except.ok.inj h
      simp only [Exec.bind_eq_ok_iff] at hr
      obtain ⟨l, -, r, -, hr⟩ := hr
      exact .bind (produces_of_number rfl (comparison_cases hr))
    | none =>
      obtain ⟨c, hc⟩ := h
      cases c with
      | compare b =>
        obtain rfl := Except.ok.inj hc
        exact .bind (.number rfl (Value.isNumber_ofBool b))
      | null => simp at hc
      | place i => simp at hc
  | store ty val ptr =>
    simp only [effect, Ask.yields_done, Exec.bind_eq_ok_iff] at h
    obtain ⟨v, hv, h⟩ := h
    split at h
    · simp at h
    · next hty =>
      simp only [Exec.bind_eq_ok_iff] at h
      obtain ⟨pv, -, p, -, ⟨id, offset⟩, -, m', hw, h⟩ := h
      obtain rfl := Except.ok.inj h
      exact .store hv (by simpa using hty) (Exec.ofMemory_eq_ok_iff.1 hw)
  | malloc dst ty count =>
    obtain ⟨size, -, h⟩ := Ask.yields_after.1 h
    exact mallocEffect_does h
  | alloca dst ty count =>
    obtain ⟨size, -, h⟩ := Ask.yields_after.1 h
    exact allocaEffect_does h
  | free ptr =>
    simp only [effect, Ask.yields_done, Exec.bind_eq_ok_iff] at h
    obtain ⟨v, hv, p, hp, m', hf, h⟩ := h
    obtain rfl := Except.ok.inj h
    obtain rfl := Value.addressOperand_eq_ok_iff.1 hp
    obtain ⟨id, b, rfl, hb, -, hkind, hf⟩ := Memory.freePointer_eq_ok hf
    exact .free hv hb hkind hf
  | binOp | select | gep | psub | ptrToInt | intToPtr | bitcast | load | call => exact hcompute h

end Instruction

end PointerSemantics
