import PointerSemantics.Proofs.Action
import PointerSemantics.Proofs.Codec
import PointerSemantics.Proofs.Runs
import PointerSemantics.Proofs.Reachable

/-!
# Address zero

Address zero is the address of null. A cast of an integer, a load and a move of null see to it: where the
address comes out as zero, the pointer is null. A move of a physical pointer does not. Where it arrives at
address zero, in bounds or not, the pointer stays physical and is a second null, which differs from the first
in its bits. No other instruction makes one, so a run is without it as long as it moves no physical pointer to
address zero, and no longer (`zeroIsNull_iff_of_nstep`).
-/

namespace PointerSemantics

/-! ## Physical pointers to address zero -/

/-- The pointer is physical and has address zero: a second null. -/
def Pointer.isZeroAddress : Pointer → Bool
  | physical addr _ _ => addr == 0
  | logical _ _ | null => false

def Value.isZeroAddress : Value → Bool
  | ptr p => p.isZeroAddress
  | num _ _ | poison => false

/-- The bit is one of a pointer with address zero. -/
def Bit.isZeroAddress : Bit → Bool
  | ptr p _ => p.isZeroAddress
  | val _ | poison => false

/-- The action moves a physical pointer to address zero, where a plain move wraps around. -/
def Action.movesToZero (m : Memory) : Action → Bool
  | move (.physical addr _ _) delta true => decide ((addr : Int) + delta = 0)
  | move (.physical addr _ _) delta false => decide (((addr : Int) + delta) % m.config.memsz = 0)
  | _ => false

def Instruction.movesToZero (m : Memory) (regs : Table Value) (i : Instruction) : Bool :=
  match i.prepare regs with
  | .ok a => a.movesToZero m
  | .error _ => false

/-- The instruction that comes next moves a physical pointer to address zero. -/
def Config.movesToZero (p : Program) (c : Config) : Bool :=
  match c.stack with
  | [] => false
  | f :: _ =>
    match c.fetch p f with
    | .ok (_, .instruction i) => i.movesToZero c.memory f.registers
    | _ => false

/-- Null is the only pointer with address zero in the registers and in memory. -/
structure Config.ZeroIsNull (c : Config) : Prop where
  registers : c.AllValues fun v => v.isZeroAddress = false
  stored : c.memory.AllBits fun bit => bit.isZeroAddress = false

/-! ## Values -/

section Values

variable {m : Memory} {regs : Table Value} {i : Instruction} {e : Effect} {v : Value}

theorem Value.IsNumber.isZeroAddress {w : Nat} (h : v.IsNumber w) : v.isZeroAddress = false := by
  obtain ⟨⟨n, rfl⟩, -⟩ := h
  rfl

/-- The pointer with an address, which is null where the address is zero. -/
theorem Value.isZeroAddress_ofAddress (addr : Nat) (owner : Option BlockId) :
    (if addr = 0 then null else ptr (.ofAddress addr owner)).isZeroAddress = false := by
  split
  · rfl
  · next h => exact beq_eq_false_iff_ne.2 h

theorem Operand.isZeroAddress_eval {op : Operand}
    (hregs : ∀ r v, regs.find? r = some v → v.isZeroAddress = false) (h : op.eval regs = .ok v) :
    v.isZeroAddress = false :=
  forall_eval hregs (fun _ _ => rfl) rfl rfl h

theorem Bit.isZeroAddress_of_encode {ty : Ty} {byte : Byte} {bit : Bit} (hv : v.isZeroAddress = false)
    (hbyte : byte ∈ v.encode ty) (hbit : bit ∈ byte.toList) : bit.isZeroAddress = false := by
  obtain ⟨i, -, rfl⟩ := Memory.mem_encode hbyte hbit
  unfold Value.bit
  split
  · split <;> rfl
  · rfl
  · exact hv
  · rfl

namespace Memory

theorem pointerOfInt_of_mod_eq_zero {n : Nat} (h : n % m.config.memsz = 0) : m.pointerOfInt n = .null :=
  if_pos h

theorem isZeroAddress_pointerOfInt (n : Nat) : (m.pointerOfInt n).isZeroAddress = false :=
  Value.isZeroAddress_ofAddress _ _

theorem isZeroAddress_pointerOfBytes (n : Nat) : (m.pointerOfBytes n).isZeroAddress = false :=
  Value.isZeroAddress_ofAddress _ _

theorem isZeroAddress_loaded (v : Value) : (m.loaded v).isZeroAddress = false := by
  cases v with
  | num | poison => rfl
  | ptr p =>
    cases p with
    | null | logical => rfl
    | physical addr visited owner => exact isZeroAddress_pointerOfBytes addr

/-- Concrete bytes that write address zero are null at a pointer type. -/
theorem loaded_of_concrete? {bytes : List Byte} {n : Nat} (ty : Ty)
    (h : concrete? (bytes.flatMap Byte.toList) = some n) (hzero : n % Word.count % m.config.memsz = 0) :
    m.loaded (Value.decode bytes (.ptr ty)) = .null := by
  rw [Value.decode_testBit (eq_of_concrete? h), Nat.mod_eq_of_lt (lt_of_concrete? h)]
  dsimp only
  split
  · rfl
  · exact if_pos hzero

/-- A plain move of null by a multiple of the size of the address space leads back to null. -/
theorem movePointer_null_of_mod_eq_zero {delta : Int} (h : delta % m.config.memsz = 0) :
    m.movePointer .null delta false = .null := by
  have hwrap : m.wrap delta = 0 := congrArg Int.toNat h
  simp [movePointer, hwrap]

/-- A move makes a physical pointer to address zero only of another physical pointer. -/
theorem isZeroAddress_movePointer (hvalid : m.config.validate = .ok ()) (p : Pointer) (delta : Int)
    (inbounds : Bool) :
    (m.movePointer p delta inbounds).isZeroAddress = (Action.move p delta inbounds).movesToZero m := by
  have hpos := MemConfig.memsz_pos hvalid
  cases p with
  | null =>
    unfold movePointer
    dsimp only
    split
    · rfl
    · split
      · rfl
      · exact Value.isZeroAddress_ofAddress _ _
  | logical id o =>
    unfold movePointer
    dsimp only
    split
    · rfl
    · cases m.get? id with
      | none => rfl
      | some b =>
        dsimp only
        split <;> rfl
  | physical addr visited owner =>
    unfold movePointer
    cases inbounds with
    | false =>
      have hnonneg := Int.emod_nonneg ((addr : Int) + delta) (b := (m.config.memsz : Int)) (by omega)
      refine Bool.eq_iff_iff.2 (beq_iff_eq.trans (Iff.trans ?_ decide_eq_true_iff.symm))
      unfold wrap
      omega
    | true =>
      simp only [Bool.not_true, Bool.false_eq_true, if_false]
      split
      · refine Bool.eq_iff_iff.2 (beq_iff_eq.trans (Iff.trans ?_ decide_eq_true_iff.symm))
        omega
      · refine (decide_eq_false ?_).symm
        omega

end Memory

/-! ## Instructions -/

namespace Instruction

theorem Produces.isZeroAddress (h : i.Produces m regs v) (hi : i.category ≠ .gep)
    (hregs : ∀ r v, regs.find? r = some v → v.isZeroAddress = false) : v.isZeroAddress = false := by
  cases h with
  | operand _ hv => exact Operand.isZeroAddress_eval hregs hv
  | poison => rfl
  | null => rfl
  | number _ hv => exact hv.isZeroAddress
  | move => exact absurd rfl hi
  | cast _ n => exact Memory.isZeroAddress_pointerOfInt n
  | load => exact Memory.isZeroAddress_loaded _

theorem Does.isZeroAddress (h : i.Does m regs e) (hi : i.category ≠ .gep)
    (hregs : ∀ r v, regs.find? r = some v → v.isZeroAddress = false) (hv : e.value = some v) :
    v.isZeroAddress = false := by
  rcases h.value_cases hv with ⟨h, -⟩ | ⟨req, id, -, rfl⟩
  · exact h.isZeroAddress hi hregs
  · rfl

/-- What a `gep` does is a move, or nothing that needs memory. -/
theorem prepare_gep {dst : Reg} {inbounds : Bool} {ty : Ty} {ptr idx : Operand} {a : Action}
    (h : (gep dst inbounds ty ptr idx).prepare regs = .ok a) :
    a = .bind .poison ∨ ∃ p delta, a = .move p delta inbounds := by
  simp only [prepare, Exec.bind_eq_ok_iff] at h
  obtain ⟨-, -, p, -, n, -, h⟩ := h
  cases n with
  | num w n =>
    cases p with
    | none => exact .inl (Except.ok.inj h).symm
    | some p => exact .inr ⟨p, _, (Except.ok.inj h).symm⟩
  | poison => cases p <;> exact .inl (Except.ok.inj h).symm
  | ptr q => simp at h

theorem exists_eq_gep (h : i.category = .gep) :
    ∃ dst inbounds ty ptr idx, i = .gep dst inbounds ty ptr idx := by
  cases i with
  | gep dst inbounds ty ptr idx => exact ⟨dst, inbounds, ty, ptr, idx, rfl⟩
  | icmp dst pred ty lhs rhs => cases ty <;> simp [category, Ty.isPtr] at h
  | _ => simp [category] at h

/-- A `gep` binds a physical pointer to address zero exactly if it moves one there. -/
theorem exists_value_of_gep (hvalid : m.config.validate = .ok ()) (hi : i.category = .gep)
    (h : (i.effect m regs).Yields (.ok e)) : ∃ dst v, i.def? = some dst ∧ e = .binding m v ∧
      v.isZeroAddress = i.movesToZero m regs := by
  obtain ⟨dst, inbounds, ty, ptr, idx, rfl⟩ := exists_eq_gep hi
  rw [effect_eq_act] at h
  obtain ⟨a, ha, h⟩ := Ask.yields_after.1 h
  unfold movesToZero
  rw [ha]
  rcases prepare_gep ha with rfl | ⟨p, delta, rfl⟩
  · obtain rfl := Except.ok.inj h
    exact ⟨dst, .poison, rfl, rfl, rfl⟩
  · obtain rfl := Except.ok.inj h
    exact ⟨dst, _, rfl, rfl, Memory.isZeroAddress_movePointer hvalid p delta inbounds⟩

theorem category_of_movesToZero (h : i.movesToZero m regs = true) : i.category = .gep := by
  unfold movesToZero at h
  split at h
  · next a ha =>
    cases prepares_of_prepare ha with
    | move => rfl
    | _ => simp [Action.movesToZero] at h
  · cases h

/-- A move always succeeds. -/
theorem exists_effect_of_movesToZero (h : i.movesToZero m regs = true) :
    ∃ e, i.effect m regs = .done (.ok e) := by
  unfold movesToZero at h
  split at h
  · next a ha =>
    rw [effect_eq_act, ha]
    cases a with
    | move => exact ⟨_, rfl⟩
    | _ => simp [Action.movesToZero] at h
  · cases h

end Instruction

end Values

/-! ## Steps -/

namespace Config

variable {p : Program} {c d : Config} {f : Frame} {rest : List Frame} {fn : FunctionDef} {i : Instruction}

theorem movesToZero_of_fetch (hstack : c.stack = f :: rest)
    (hfetch : c.fetch p f = .ok (fn, .instruction i)) :
    c.movesToZero p = i.movesToZero c.memory f.registers := by
  unfold movesToZero
  rw [hstack]
  dsimp only
  rw [hfetch]

theorem exists_gep_of_movesToZero (h : c.movesToZero p = true) :
    ∃ f rest fn i, c.stack = f :: rest ∧ c.fetch p f = .ok (fn, .instruction i) ∧ i.category = .gep ∧
      i.movesToZero c.memory f.registers = true := by
  unfold movesToZero at h
  split at h
  · cases h
  · next f rest hstack =>
    split at h
    · next fn i hfetch =>
      exact ⟨f, rest, fn, i, hstack, hfetch, Instruction.category_of_movesToZero h, h⟩
    · cases h

theorem exists_step_of_movesToZero (h : c.movesToZero p = true) : ∃ d, c.step p = .done (.ok d) := by
  obtain ⟨f, rest, fn, i, hstack, hfetch, hgep, hzero⟩ := exists_gep_of_movesToZero h
  obtain ⟨e, he⟩ := Instruction.exists_effect_of_movesToZero hzero
  rw [step_instruction hstack hfetch (by rw [hgep]; decide), he]
  exact ⟨_, rfl⟩

theorem ZeroIsNull.stored_of_steps (hc : c.ZeroIsNull) (h : c.Steps p d) :
    d.memory.AllBits fun bit => bit.isZeroAddress = false :=
  h.allBits hc.stored rfl fun f hf _ _ _ hv _ hbyte _ hbit =>
    Bit.isZeroAddress_of_encode (Operand.isZeroAddress_eval (hc.registers f hf) hv) hbyte hbit

/-- Away from a `gep`, null stays the only pointer with address zero. -/
theorem ZeroIsNull.of_steps (hc : c.ZeroIsNull) (h : c.Steps p d)
    (hgep : ∀ f rest fn i, c.stack = f :: rest → c.fetch p f = .ok (fn, .instruction i) →
      i.category ≠ .gep) : d.ZeroIsNull := by
  refine ⟨h.allValues hc.registers (fun _ hv => hv) rfl rfl (fun _ _ _ _ _ _ => rfl) ?_,
    hc.stored_of_steps h⟩
  intro f rest fn i e v hstack hfetch he _ hv
  exact he.isZeroAddress (hgep f rest fn i hstack hfetch) (fun _ _ => hc.registers.top hstack) hv

/-- A step from a state without a second null leads to another one exactly if it does not move a physical
pointer to address zero. -/
theorem ZeroIsNull.step_iff (hc : c.ZeroIsNull) (hvalid : c.memory.config.validate = .ok ())
    (h : (c.step p).Yields (.ok d)) : d.ZeroIsNull ↔ c.movesToZero p = false := by
  have hstored := hc.stored_of_steps (steps_of_yields h)
  by_cases hgep : ∃ f rest fn i, c.stack = f :: rest ∧ c.fetch p f = .ok (fn, .instruction i) ∧
      i.category = .gep
  · obtain ⟨f, rest, fn, i, hstack, hfetch, hi⟩ := hgep
    rw [step_instruction hstack hfetch (by rw [hi]; decide)] at h
    obtain ⟨x, hx, h⟩ := Ask.yields_map.1 h
    obtain ⟨e, rfl, rfl⟩ := Exec.map_eq_ok_iff.1 h
    obtain ⟨dst, v, hdst, rfl, hv⟩ := Instruction.exists_value_of_gep hvalid hi hx
    rw [movesToZero_of_fetch hstack hfetch, ← hv]
    constructor
    · intro hzero
      refine hzero.registers.top rfl (r := dst) ?_
      simp [Frame.advance, hdst, Effect.binding, Table.find?_insert]
    · intro hzero
      refine ⟨hc.registers.advance hstack fun w hw => ?_, hstored⟩
      obtain rfl := Option.some.inj hw
      exact hzero
  · have hother : c.movesToZero p = false := by
      refine Bool.eq_false_iff.2 fun hmoves => hgep ?_
      obtain ⟨f, rest, fn, i, hstack, hfetch, hi, -⟩ := exists_gep_of_movesToZero hmoves
      exact ⟨f, rest, fn, i, hstack, hfetch, hi⟩
    refine iff_of_true (hc.of_steps (steps_of_yields h) ?_) hother
    intro f rest fn i hstack hfetch hi
    exact hgep ⟨f, rest, fn, i, hstack, hfetch, hi⟩

end Config

/-! ## Runs -/

section Run

open Config

variable {σ : Type} {p : Program} {o : Oracle σ} {c : Config} {s : σ} {entry : FunctionId}
  {args : List Value} {config : MemConfig}

theorem zeroIsNull_initial (hinitial : Config.initial p entry args config = .ok c)
    (hargs : ∀ v ∈ args, v.isZeroAddress = false) : c.ZeroIsNull := by
  refine ⟨Config.allValues_initial hinitial hargs, ?_⟩
  obtain ⟨-, fn, -, -, rfl⟩ := Config.initial_eq_ok hinitial
  exact Memory.AllBits.empty config

/-- After a number of steps a run has been without a second null exactly if none of its steps has moved a
physical pointer to address zero. -/
theorem forall_zeroIsNull_iff (hinitial : Config.initial p entry args config = .ok c)
    (hargs : ∀ v ∈ args, v.isZeroAddress = false) (n : Nat) :
    (∀ k ≤ n, ∀ d, (nstep p o k c s).1.outcome = .running d → d.ZeroIsNull) ↔
      ∀ k < n, ∀ d, (nstep p o k c s).1.outcome = .running d → d.movesToZero p = false := by
  have hvalid : ∀ {k d}, (nstep p o k c s).1.outcome = .running d → d.memory.config.validate = .ok () :=
    fun hd => (confined_of_nstep hinitial hd).valid
  constructor
  · intro h k hk d hd
    cases hmoves : d.movesToZero p with
    | false => rfl
    | true =>
      -- the move succeeds, so the run has a next state, which is without a second null too
      obtain ⟨next, hnext⟩ := Config.exists_step_of_movesToZero hmoves
      have hrunning : (nstep p o (k + 1) c s).1.outcome = .running next := by
        rw [outcome_nstep_add hd, nstep_one, hnext]
        rfl
      have hyields : (d.step p).Yields (.ok next) := by rw [hnext]; rfl
      have hzero := h k (Nat.le_of_lt hk) d hd
      exact hmoves.symm.trans ((hzero.step_iff (hvalid hd) hyields).1 (h (k + 1) hk next hrunning))
  · intro h k
    induction k with
    | zero =>
      intro _ d hd
      obtain rfl := Outcome.running.inj hd
      exact zeroIsNull_initial hinitial hargs
    | succ k ih =>
      intro hk d hd
      obtain ⟨e, he, hyields⟩ := exists_yields_of_running hd
      exact ((ih (Nat.le_of_lt hk) e he).step_iff (hvalid he) hyields).2 (h k hk e he)

/-- A cast, a load or a move of null that comes to address zero gives null; a move gives a second null exactly
if it moves a physical pointer to address zero. So what a run reaches is without a second null exactly as long
as none of its steps does that. -/
theorem zeroIsNull_iff_of_nstep (hinitial : Config.initial p entry args config = .ok c)
    (hargs : ∀ v ∈ args, v.isZeroAddress = false) (o : Oracle σ) (s : σ) :
    (∀ n, (∀ k ≤ n, ∀ d, (nstep p o k c s).1.outcome = .running d → d.ZeroIsNull) ↔
      ∀ k < n, ∀ d, (nstep p o k c s).1.outcome = .running d → d.movesToZero p = false) ∧
    ∀ m : Memory, m.config.validate = .ok () →
      (∀ n, (m.pointerOfInt n).isZeroAddress = false ∧
        (n % m.config.memsz = 0 → m.pointerOfInt n = .null)) ∧
      (∀ bytes ty, (m.loaded (Value.decode bytes ty)).isZeroAddress = false ∧
        ∀ n, concrete? (bytes.flatMap Byte.toList) = some n → n % Word.count % m.config.memsz = 0 →
          m.loaded (Value.decode bytes (.ptr ty)) = .null) ∧
      (∀ delta : Int, delta % m.config.memsz = 0 → m.movePointer .null delta false = .null) ∧
      ∀ q delta inbounds, (m.movePointer q delta inbounds).isZeroAddress =
        (Action.move q delta inbounds).movesToZero m := by
  refine ⟨forall_zeroIsNull_iff hinitial hargs, fun m hvalid => ⟨fun n => ?_, fun bytes ty => ?_, ?_, ?_⟩⟩
  · exact ⟨Memory.isZeroAddress_pointerOfInt n, Memory.pointerOfInt_of_mod_eq_zero⟩
  · exact ⟨Memory.isZeroAddress_loaded _, fun _ => Memory.loaded_of_concrete? ty⟩
  · exact fun delta => Memory.movePointer_null_of_mod_eq_zero
  · exact Memory.isZeroAddress_movePointer hvalid

end Run

/-! ## A program that gets to address zero -/

/-- Goes eight bytes back from address eight. -/
def backFunction : FunctionDef where
  name := "back"
  params := []
  retTy := .ptr (.int 8)
  blocks :=
    [{ label := "entry"
       phis := []
       instructions :=
        [.intToPtr 0 (.const (.int 64 8)) (.ptr (.int 8)),
          .gep 1 false (.int 8) (.reg 0) (.const (.int 64 18446744073709551608))]
       terminator := .ret (.reg 1) }]

def backProgram : Program
  | 0 => some backFunction
  | _ => none

def backStart : Config :=
  match Config.initial backProgram 0 [] cellConfig with
  | .ok c => c
  | .error _ => default

/-- After the cast all is well, and the move is what ends it. -/
theorem backProgram_zeroIsNull_iff :
    (∀ k ≤ 1, ∀ d, (nstep backProgram Oracle.firstFit k backStart ()).1.outcome = .running d → d.ZeroIsNull) ∧
      ¬∀ k ≤ 2, ∀ d, (nstep backProgram Oracle.firstFit k backStart ()).1.outcome = .running d →
        d.ZeroIsNull := by
  have hinitial : Config.initial backProgram 0 [] cellConfig = .ok backStart := rfl
  obtain ⟨hzero, -⟩ := zeroIsNull_iff_of_nstep hinitial nofun Oracle.firstFit ()
  constructor
  · refine (hzero 1).2 fun k hk d hd => ?_
    obtain rfl := Nat.lt_one_iff.1 hk
    obtain rfl := Outcome.running.inj hd
    decide +kernel
  · intro h
    have hmoves : (nstep backProgram Oracle.firstFit 1 backStart ()).1.outcome.state?.map
        (·.movesToZero backProgram) = some true := by decide +kernel
    obtain ⟨d, hd, htrue⟩ := Option.map_eq_some_iff.1 hmoves
    have hfalse := (hzero 2).1 h 1 (by decide) d (Outcome.state?_eq_some_iff.1 hd)
    exact Bool.false_ne_true (hfalse.symm.trans htrue)

/-- A state that a run reaches from no arguments holds a physical pointer with address zero. -/
theorem backProgram_holds_zero :
    Config.initial backProgram 0 [] cellConfig = .ok backStart ∧ ∃ d f,
      (nstep backProgram Oracle.firstFit 2 backStart ()).1.outcome = .running d ∧ f ∈ d.stack ∧
        f.registers.find? 1 = some (.ptr (.physical 0 .empty none)) := by
  have hregister : (nstep backProgram Oracle.firstFit 2 backStart ()).1.outcome.state?.bind
      (fun d => d.top?.bind fun f => f.registers.find? 1) = some (.ptr (.physical 0 .empty none)) := by
    decide +kernel
  obtain ⟨d, hd, htop⟩ := Option.bind_eq_some_iff.1 hregister
  obtain ⟨f, hf, hv⟩ := Option.bind_eq_some_iff.1 htop
  exact ⟨rfl, d, f, Outcome.state?_eq_some_iff.1 hd, List.mem_of_mem_head? hf, hv⟩

end PointerSemantics
