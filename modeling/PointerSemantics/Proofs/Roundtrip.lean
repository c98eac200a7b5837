import PointerSemantics.Proofs.Codec
import PointerSemantics.Proofs.Memory.Commute
import PointerSemantics.Proofs.Memory.ReadWrite
import PointerSemantics.Proofs.Swap.Pairs
import PointerSemantics.Proofs.WellFormed

/-!
# Loading what was stored

A load directly behind a store through the same pointer finds the bytes that were written
(`Memory.Wf.fetchValue_of_storeValue`): a write changes the contents of one block only, and where a
pointer goes does not depend on contents (`Memory.resolve_shell`).

What the load binds is the stored value, but for bare addresses. A load takes every physical pointer for
its address alone, those stored bit by bit as well as those made of concrete bytes, and so drops the
owner and the addresses that in-bounds moves passed through (`Config.load_after_store`).
-/

namespace PointerSemantics

/-! ## Memory without contents -/

/-- The block without its contents. -/
def Block.shell (b : Block) : Block := { b with bytes := [] }

namespace Memory

variable {m m' : Memory} {id : BlockId} {offset : Nat} {bytes : List Byte} {p : Pointer} {ty : Ty}
  {v : Value}

/-- Memory without the contents of its blocks. -/
def shell (m : Memory) : Memory := { m with blocks := m.blocks.map Block.shell }

@[simp] theorem get?_shell : m.shell.get? id = (m.get? id).map Block.shell := Table.find?_map _ _ _

theorem liveBlockContaining?_shell {addr len : Nat} :
    m.shell.liveBlockContaining? addr len = m.liveBlockContaining? addr len := by
  unfold liveBlockContaining? liveBlocks shell
  rw [Table.values_map, List.filter_map, List.find?_map, Option.map_map]
  rfl

/-- Where an access goes does not depend on contents. -/
theorem resolve_shell {len : Nat} : m.shell.resolve p len = m.resolve p len := by
  unfold resolve
  simp only [get?_shell, liveBlockContaining?_shell]
  cases p with
  | null => rfl
  | logical block o =>
    dsimp only
    cases m.get? block <;> rfl
  | physical addr visited owner =>
    dsimp only
    cases m.liveBlockContaining? addr len with
    | none => rfl
    | some block =>
      dsimp only
      cases m.get? block <;> rfl

theorem shell_write (h : m.write id offset bytes = .ok m') : m'.shell = m.shell := by
  obtain ⟨b, hb, -, -, rfl⟩ := write_eq_ok_iff.1 h
  unfold shell
  dsimp only
  congr 1
  refine Table.ext_find? fun k => ?_
  rw [Table.find?_map, Table.find?_map, Table.find?_insert]
  split
  · next hk =>
    subst hk
    have hget : m.blocks.find? k = some b := hb
    rw [hget]
    rfl
  · rfl

theorem resolve_write (h : m.write id offset bytes = .ok m') {len : Nat} :
    m'.resolve p len = m.resolve p len := by
  rw [← resolve_shell, shell_write h, resolve_shell]

/-! ## Reading what was written -/

/-- What is fetched behind a store is what the load makes of the stored value. -/
theorem Wf.fetchValue_of_storeValue (hm : m.Wf) (h : m.storeValue ty v p = .ok m')
    (hty : ty.isValid = true) (hv : v.hasType ty = true) (hn : v.NumberWf) :
    m'.fetchValue ty p = .ok (m.loaded v) := by
  obtain ⟨id, offset, hr, hw⟩ := storeValue_eq_ok_iff.1 h
  have hread := hm.read_of_write hw
  rw [Value.length_encode] at hread
  unfold fetchValue
  rw [resolve_write hw, hr, Exec.ok_bind]
  show Exec.ofMemory (m'.read id offset ty.size) >>= _ = _
  rw [hread]
  show Except.ok (m'.loaded (Value.decode (v.encode ty) ty)) = _
  rw [Value.decode_encode hty hv hn, loaded_congr (persists_write hw).config_eq]

/-! ## What a load makes of a value -/

theorem loaded_of_ne_address (h : v.isAddress = false) : m.loaded v = v := by
  cases v with
  | num | poison => rfl
  | ptr p =>
    cases p with
    | null | logical => rfl
    | physical => simp [Value.isAddress, Pointer.isPhysical] at h

theorem loaded_physical {addr : Nat} {visited : AddrSet} {owner : Option BlockId}
    (h : addr < m.config.memsz) : m.loaded (.ptr (.physical addr visited owner)) =
      if addr = 0 then .null else .ptr (.ofAddress addr none) := by
  unfold loaded pointerOfBytes
  dsimp only
  rw [Nat.mod_eq_of_lt h]

end Memory

/-! ## A store and the load behind it -/

section Pair

variable {regs : Table Value} {ty : Ty} {val ptr : Operand}

theorem Instruction.prepare_store_eq_ok {a : Action} (h : (store ty val ptr).prepare regs = .ok a) :
    ∃ v q, val.eval regs = .ok v ∧ v.hasType ty = true ∧ ptr.eval regs = .ok (.ptr q) ∧
      a = .store ty v q := by
  obtain ⟨v, hv, h⟩ := Exec.bind_eq_ok_iff.1 h
  split at h
  · simp at h
  · next hty =>
    obtain ⟨x, hx, h⟩ := Exec.bind_eq_ok_iff.1 h
    obtain ⟨q, hq, h⟩ := Exec.bind_eq_ok_iff.1 h
    obtain rfl := Value.addressOperand_eq_ok_iff.1 hq
    exact ⟨v, q, hv, by simpa using hty, hx, (Except.ok.inj h).symm⟩

theorem Instruction.prepare_load (dst : Reg) (ty : Ty) {q : Pointer}
    (h : ptr.eval regs = .ok (.ptr q)) : (load dst ty ptr).prepare regs = .ok (.load ty q) := by
  simp only [prepare, h, Exec.ok_bind]
  rfl

end Pair

namespace Config

variable {p : Program} {c d : Config} {f : Frame} {rest : List Frame} {ty : Ty} {val ptr : Operand}
  {dst : Reg} {v : Value}

/-- What is bound to a register of the innermost frame. -/
def register? (c : Config) (r : Reg) : Option Value := c.top?.bind fun f => f.registers.find? r

/-- A value that an operand has in a well-formed state is well-formed if it has a valid type. -/
theorem WellFormed.valueWf_of_eval (h : c.WellFormed p) (hf : f ∈ c.stack) {op : Operand}
    (hop : op.eval f.registers = .ok v) (hty : ty.isValid = true) (hv : v.hasType ty = true) :
    c.memory.valueWf v = true := by
  rcases Operand.eval_cases hop with ⟨r, -, hr⟩ | ⟨w, n, -, rfl⟩ | rfl | rfl
  · exact (h.frames f hf).registers r v hr
  · cases ty with
    | ptr t => simp [Value.ofBits, Value.hasType] at hv
    | int w' =>
      obtain rfl : w = w' := by simpa [Value.ofBits, Value.hasType] using hv
      obtain ⟨h1, h2⟩ := Ty.isValid_int_iff.1 hty
      exact Memory.valueWf_iff.2 ⟨Memory.pointsWell_num _ _, Value.numberWf_ofBits h1 h2⟩
  · rfl
  · rfl

/-- A store that goes on has put a value of its type where its pointer goes. -/
theorem AtPair.store_step {j : Instruction} (h : c.AtPair p f rest (.store ty val ptr) j)
    (hval : val.eval f.registers = .ok v) (hstep : c.step p = .done (.ok d)) :
    ∃ q m, v.hasType ty = true ∧ ptr.eval f.registers = .ok (.ptr q) ∧
      c.memory.storeValue ty v q = .ok m ∧
      d = c.advance f rest (.store ty val ptr) (.change m) := by
  obtain ⟨fn, hfirst⟩ := h.first
  rw [step_instruction h.stack hfirst nofun] at hstep
  cases hprepare : (Instruction.store ty val ptr).prepare f.registers with
  | error e =>
    rw [Instruction.effect_of_prepare_error hprepare] at hstep
    simp [Ask.map, Except.map] at hstep
  | ok a =>
    obtain ⟨v', q, hv', hty, hq, rfl⟩ := Instruction.prepare_store_eq_ok hprepare
    obtain rfl : v = v' := Except.ok.inj (hval.symm.trans hv')
    rw [congrFun (Instruction.effect_of_prepare hprepare) c.memory] at hstep
    obtain ⟨x, hx, rfl⟩ := Exec.map_eq_ok_iff.1 (Ask.done.inj hstep)
    obtain ⟨m, hm, rfl⟩ := Exec.map_eq_ok_iff.1 hx
    exact ⟨q, m, hty, hq, hm, rfl⟩

/-- A load directly behind a store that goes on, through the same pointer and at the same type, goes on as
well and binds what was stored: an integer, null, a logical pointer and poison as they are, a physical
pointer without its owner and without the addresses that in-bounds moves passed through. -/
theorem load_after_store (hcheck : c.check p = .ok ())
    (hpair : c.AtPair p f rest (.store ty val ptr) (.load dst ty ptr)) (hty : ty.isValid = true)
    (hval : val.eval f.registers = .ok v) (hstep : c.step p = .done (.ok d)) :
    ∃ e w, d.step p = .done (.ok e) ∧ e.register? dst = some w ∧
      (v.isAddress = false → w = v) ∧
      ∀ addr visited owner, v = .ptr (.physical addr visited owner) →
        w = if addr = 0 then .null else .ptr (.ofAddress addr none) := by
  have hwf := check_eq_ok_iff.1 hcheck
  obtain ⟨q, m, hv, hq, hstore, rfl⟩ := hpair.store_step hval hstep
  have hf : f ∈ c.stack := hpair.stack ▸ List.mem_cons_self
  obtain ⟨hpoints, hnumber⟩ := Memory.valueWf_iff.1 (hwf.valueWf_of_eval hf hval hty hv)
  have hfetch := hwf.memory.fetchValue_of_storeValue hstore hty hv hnumber
  obtain ⟨fn, hsecond⟩ := hpair.second
  -- the store leaves the registers and the call table as they were
  have hload : (c.advance f rest (.store ty val ptr) (.change m)).fetch p
      (f.advance (.store ty val ptr) (.change m)) = .ok (fn, .instruction (.load dst ty ptr)) := hsecond
  have hprepare := Instruction.prepare_load dst ty hq
  refine ⟨c.advanceBoth f rest (.store ty val ptr) (.load dst ty ptr) (.change m)
    (.binding m (c.memory.loaded v)), c.memory.loaded v, ?_, ?_, Memory.loaded_of_ne_address, ?_⟩
  · rw [step_instruction rfl hload nofun]
    show ((Instruction.load dst ty ptr).effect m f.registers).map _ = _
    rw [congrFun (Instruction.effect_of_prepare hprepare) m]
    show Ask.done (Except.map _ (Except.map (Effect.binding m) (m.fetchValue ty q))) = _
    rw [hfetch]
    rfl
  · exact (Table.find?_insert _ _ _ _).trans (if_pos rfl)
  · rintro addr visited owner rfl
    exact Memory.loaded_physical (Memory.pointerWf_physical.1 (Memory.pointsWell_ptr.1 hpoints)).1

end Config

/-- The small function at its store. -/
def cellStored : Config where
  memory :=
    { blocks := Table.empty.insert 0
        { id := 0, kind := .stack, base := 8, size := 1, born := 0, died := none, align := 8,
          bytes := [.poison], candidates := .ofList [8, 16] }
      clock := 1
      freshId := 1
      config := cellConfig }
  stack :=
    [⟨0, ⟨0, 2⟩, .ofList [(0, .num 8 5), (1, .ptr (.logical 0 0)), (2, .num 8 6)], none, [0]⟩]
  callTable := Table.empty.insert 0 1
  nextCallId := 1

theorem cellStored_load_after_store : ∃ d e, cellStored.step cellProgram = .done (.ok d) ∧
    d.step cellProgram = .done (.ok e) ∧ e.register? 3 = some (.num 8 6) := by
  have hpair : cellStored.AtPair cellProgram _ [] (.store (.int 8) (.reg 2) (.reg 1))
      (.load 3 (.int 8) (.reg 1)) := ⟨rfl, ⟨_, rfl⟩, ⟨_, rfl⟩⟩
  obtain ⟨e, w, he, hw, hkept, -⟩ := Config.load_after_store (v := .num 8 6) (by decide)
    hpair (by decide) rfl rfl
  exact ⟨_, e, rfl, he, hkept rfl ▸ hw⟩

/-- Casts the address of a cell to a pointer, stores it in the cell and returns what it loads from there. -/
def castFunction : FunctionDef where
  name := "cast"
  params := []
  retTy := .ptr (.int 8)
  blocks :=
    [{ label := "entry"
       phis := []
       instructions :=
        [.alloca 0 (.ptr (.int 8)) (.const (.int 8 1)),
          .ptrToInt 1 (.reg 0) (.int 64),
          .intToPtr 2 (.reg 1) (.ptr (.int 8)),
          .store (.ptr (.int 8)) (.reg 2) (.reg 0),
          .load 3 (.ptr (.int 8)) (.reg 0)]
       terminator := .ret (.reg 3) }]

def castProgram : Program
  | 0 => some castFunction
  | _ => none

/-- The function at its store. The cast pointer is owned by the cell. -/
def castStored : Config where
  memory :=
    { blocks := Table.empty.insert 0
        { id := 0, kind := .stack, base := 8, size := 4, born := 0, died := none, align := 8,
          bytes := List.replicate 4 .poison, candidates := .ofList [8, 16] }
      clock := 1
      freshId := 1
      config := cellConfig }
  stack :=
    [⟨0, ⟨0, 3⟩, .ofList [(0, .ptr (.logical 0 0)), (1, .num 64 8),
      (2, .ptr (.ofAddress 8 (some 0)))], none, [0]⟩]
  callTable := Table.empty.insert 0 0
  nextCallId := 1

/-- The pointer that is loaded is not the well-formed pointer that was stored just before: it has lost
its owner. -/
theorem castStored_load_ne_stored :
    castStored.check castProgram = .ok () ∧
      (∃ f, castStored.AtPair castProgram f [] (.store (.ptr (.int 8)) (.reg 2) (.reg 0))
        (.load 3 (.ptr (.int 8)) (.reg 0))) ∧
      castStored.memory.valueWf (.ptr (.ofAddress 8 (some 0))) = true ∧
      castStored.register? 2 = some (.ptr (.ofAddress 8 (some 0))) ∧
      ∃ d e, castStored.step castProgram = .done (.ok d) ∧ d.step castProgram = .done (.ok e) ∧
        e.register? 3 = some (.ptr (.ofAddress 8 none)) ∧
        e.register? 3 ≠ castStored.register? 2 := by
  refine ⟨by decide, ⟨_, rfl, ⟨_, rfl⟩, ⟨_, rfl⟩⟩, by decide, rfl, _, _, rfl, rfl, rfl, ?_⟩
  decide

end PointerSemantics
