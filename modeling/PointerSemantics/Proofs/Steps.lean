import PointerSemantics.Step
import PointerSemantics.Proofs.Effects

/-!
# What a step can do

`Config.Steps` lists the ways in which a state goes on: an instruction has its effect, a function is
called, the innermost frame jumps, or it returns. An invariant is kept by every step if it is kept in
these four ways; `step` itself is opened here only.
-/

namespace PointerSemantics

theorem Instruction.exists_eq_call {i : Instruction} (h : i.category = .call) :
    ∃ dst callee args, i = .call dst callee args := by
  cases i with
  | call dst callee args => exact ⟨dst, callee, args, rfl⟩
  | icmp dst pred ty lhs rhs => cases ty <;> simp [category, Ty.isPtr] at h
  | _ => simp [category] at h

theorem Instruction.category_ne_call {i : Instruction}
    (h : ∀ dst callee args, i ≠ .call dst callee args) : i.category ≠ .call := by
  intro hcall
  obtain ⟨dst, callee, args, rfl⟩ := exists_eq_call hcall
  exact h dst callee args rfl

/-! ## Lists of computations -/

theorem Exec.mem_of_mapM {α β : Type} {f : α → Exec β} {as : List α} {bs : List β}
    (h : as.mapM f = .ok bs) {b : β} (hb : b ∈ bs) : ∃ a ∈ as, f a = .ok b := by
  induction as generalizing bs with
  | nil =>
    obtain rfl := Except.ok.inj h
    simp at hb
  | cons a rest ih =>
    simp only [List.mapM_cons, Exec.bind_eq_ok_iff] at h
    obtain ⟨c, hc, cs, hcs, h⟩ := h
    obtain rfl := Except.ok.inj h
    rcases List.mem_cons.1 hb with rfl | hb
    · exact ⟨a, List.mem_cons_self, hc⟩
    · obtain ⟨x, hx, hfx⟩ := ih hcs hb
      exact ⟨x, List.mem_cons_of_mem _ hx, hfx⟩

theorem Exec.mapM_congr {α β : Type} {f g : α → Exec β} {as : List α} (h : ∀ a ∈ as, f a = g a) :
    as.mapM f = as.mapM g := by
  induction as with
  | nil => rfl
  | cons a rest ih =>
    obtain ⟨ha, hrest⟩ := List.forall_mem_cons.1 h
    rw [List.mapM_cons, List.mapM_cons, ha, ih hrest]

theorem Table.find?_insertMany {α : Type} {t : Table α} {es : List (Nat × α)} {k : Nat} {v : α}
    (h : (t.insertMany es).find? k = some v) : t.find? k = some v ∨ (k, v) ∈ es := by
  induction es generalizing t with
  | nil => exact .inl h
  | cons e rest ih =>
    rcases ih (t := t.insert e.1 e.2) h with h | h
    · rw [find?_insert] at h
      split at h
      · next hk =>
        obtain rfl := Option.some.inj h
        exact .inr (hk ▸ List.mem_cons_self)
      · exact .inl h
    · exact .inr (List.mem_cons_of_mem _ h)

theorem Table.find?_ofList {α : Type} {es : List (Nat × α)} {k : Nat} {v : α}
    (h : (Table.ofList es).find? k = some v) : (k, v) ∈ es := by
  rcases Table.find?_insertMany h with h | h
  · simp at h
  · exact h

/-! ## The code of a function -/

namespace FunctionDef

/-- The operands in a basic block, those of its phis and its terminator included. -/
def blockOperands (b : BasicBlock) : List Operand :=
  b.phis.flatMap (·.incoming.map (·.1)) ++ b.instructions.flatMap Instruction.operands ++
    match b.terminator with
    | .condBr cond _ _ => [cond]
    | .ret val => [val]
    | .br _ | .unreachable => []

/-- Every operand that occurs in a function. -/
def operands (fn : FunctionDef) : List Operand := fn.blocks.flatMap blockOperands

variable {fn : FunctionDef} {pc : Pc}

theorem codeAt?_instruction {i : Instruction} (h : fn.codeAt? pc = some (.instruction i)) :
    ∃ b, fn.blocks[pc.block]? = some b ∧ b.instructions[pc.inst]? = some i := by
  unfold codeAt? at h
  obtain ⟨b, hb, h⟩ := Option.bind_eq_some_iff.1 h
  refine ⟨b, hb, ?_⟩
  split at h
  · next j hj =>
    obtain rfl := Code.instruction.inj (Option.some.inj h)
    exact hj
  · split at h
    · simp at h
    · simp at h

theorem codeAt?_terminator {t : Terminator} (h : fn.codeAt? pc = some (.terminator t)) :
    ∃ b, fn.blocks[pc.block]? = some b ∧ b.terminator = t ∧ pc.inst = b.instructions.length := by
  unfold codeAt? at h
  obtain ⟨b, hb, h⟩ := Option.bind_eq_some_iff.1 h
  refine ⟨b, hb, ?_⟩
  split at h
  · simp at h
  · split at h
    · next hpc => exact ⟨Code.terminator.inj (Option.some.inj h), hpc⟩
    · simp at h

theorem mem_operands_of_instruction {i : Instruction} (h : fn.codeAt? pc = some (.instruction i))
    {op : Operand} (hop : op ∈ i.operands) : op ∈ fn.operands := by
  obtain ⟨b, hb, hi⟩ := codeAt?_instruction h
  refine List.mem_flatMap.2 ⟨b, List.mem_of_getElem? hb, ?_⟩
  unfold blockOperands
  refine List.mem_append_left _ (List.mem_append_right _ ?_)
  exact List.mem_flatMap.2 ⟨i, List.mem_of_getElem? hi, hop⟩

theorem mem_operands_of_phi {b : BasicBlock} (hb : b ∈ fn.blocks) {phi : Phi} (hphi : phi ∈ b.phis)
    {op : Operand} {label : String} (hop : (op, label) ∈ phi.incoming) : op ∈ fn.operands := by
  refine List.mem_flatMap.2 ⟨b, hb, ?_⟩
  unfold blockOperands
  refine List.mem_append_left _ (List.mem_append_left _ ?_)
  exact List.mem_flatMap.2 ⟨phi, hphi, List.mem_map.2 ⟨_, hop, rfl⟩⟩

theorem mem_operands_of_ret {op : Operand} (h : fn.codeAt? pc = some (.terminator (.ret op))) :
    op ∈ fn.operands := by
  obtain ⟨b, hb, ht, -⟩ := codeAt?_terminator h
  refine List.mem_flatMap.2 ⟨b, List.mem_of_getElem? hb, ?_⟩
  unfold blockOperands
  rw [ht]
  exact List.mem_append_right _ List.mem_cons_self

/-- Behind an instruction there is code. -/
theorem isValidPc_next {i : Instruction} (h : fn.codeAt? pc = some (.instruction i)) :
    fn.isValidPc pc.next = true := by
  obtain ⟨b, hb, hi⟩ := codeAt?_instruction h
  have hlt : pc.inst < b.instructions.length := (List.getElem?_eq_some_iff.1 hi).1
  unfold isValidPc codeAt? Pc.next
  rw [hb, Option.bind_some]
  cases hn : b.instructions[pc.inst + 1]? with
  | some j => rfl
  | none =>
    have : b.instructions.length ≤ pc.inst + 1 := List.getElem?_eq_none_iff.1 hn
    dsimp only
    rw [if_pos (by omega)]
    rfl

/-- Every block begins with code. -/
theorem isValidPc_start {k : Nat} {b : BasicBlock} (hb : fn.blocks[k]? = some b) :
    fn.isValidPc ⟨k, 0⟩ = true := by
  unfold isValidPc codeAt?
  rw [hb, Option.bind_some]
  cases hn : b.instructions[0]? with
  | some j => rfl
  | none =>
    have : b.instructions.length ≤ 0 := List.getElem?_eq_none_iff.1 hn
    dsimp only
    rw [if_pos (by omega)]
    rfl

end FunctionDef

/-! ## Jumps -/

namespace Frame

variable {f g : Frame} {fn : FunctionDef} {label : String}

theorem mem_phiValues {source : String} {phis : List Phi} {values : List (Reg × Value)}
    (h : f.phiValues source phis = .ok values) {r : Reg} {v : Value} (hv : (r, v) ∈ values) :
    ∃ phi ∈ phis, r = phi.dst ∧ v.hasType phi.ty = true ∧
      ∃ op label, (op, label) ∈ phi.incoming ∧ op.eval f.registers = .ok v := by
  obtain ⟨phi, hphi, h⟩ := Exec.mem_of_mapM h hv
  split at h
  · simp at h
  · next op label hfind =>
    obtain ⟨w, hw, h⟩ := Exec.bind_eq_ok_iff.1 h
    split at h
    · next hty =>
      obtain ⟨rfl, rfl⟩ := Prod.mk.inj (Except.ok.inj h)
      exact ⟨phi, hphi, rfl, hty, op, label, List.mem_of_find?_eq_some hfind, hw⟩
    · simp at h

/-- A jump goes to the start of a block and binds its phis. -/
theorem jump_eq_ok (h : f.jump fn label = .ok g) :
    ∃ index source target values, fn.blocks[index]? = some target ∧
      f.phiValues source target.phis = .ok values ∧
      g = { f with pc := ⟨index, 0⟩, registers := f.registers.insertMany values } := by
  unfold jump at h
  split at h
  · simp at h
  · next index _ =>
    split at h
    · next source target _ ht =>
      obtain ⟨values, hvalues, h⟩ := Exec.bind_eq_ok_iff.1 h
      exact ⟨index, source.label, target, values, ht, hvalues, (Except.ok.inj h).symm⟩
    · simp at h

/-- The frame with a returned value bound. -/
def receive (f : Frame) (dst : Option Reg) (v : Value) : Frame :=
  { f with
    registers :=
      match dst with
      | some dst => f.registers.insert dst v
      | none => f.registers }

end Frame

namespace Config

variable {p : Program} {c d : Config} {f : Frame} {rest : List Frame}

theorem fetch_eq_ok_iff {fn : FunctionDef} {code : Code} : c.fetch p f = .ok (fn, code) ↔
    ∃ id, c.callTable.find? f.callId = some id ∧ p id = some fn ∧
      fn.codeAt? f.pc = some code := by
  unfold fetch
  simp only [Exec.bind_eq_ok_iff, Exec.orStuck_eq_ok_iff, Exec.pure_eq_ok, Except.ok.injEq,
    Prod.mk.injEq]
  constructor
  · rintro ⟨id, hid, fn', hfn, code', hcode, rfl, rfl⟩
    exact ⟨id, hid, hfn, hcode⟩
  · rintro ⟨id, hid, hfn, hcode⟩
    exact ⟨id, hid, fn, hfn, code, hcode, rfl, rfl⟩

/-! ## Calls and returns -/

theorem mem_bindArguments {regs bound : Table Value} {params : List (Reg × Ty)}
    {args : List Operand} (h : bindArguments regs params args = .ok bound) {r : Reg} {v : Value}
    (hv : bound.find? r = some v) :
    ∃ ty, (r, ty) ∈ params ∧ v.hasType ty = true ∧ ∃ op ∈ args, op.eval regs = .ok v := by
  unfold bindArguments at h
  obtain ⟨values, hvalues, h⟩ := Exec.bind_eq_ok_iff.1 h
  obtain rfl := Except.ok.inj h
  obtain ⟨⟨⟨r', ty⟩, op⟩, hmem, h⟩ := Exec.mem_of_mapM hvalues (Table.find?_ofList hv)
  obtain ⟨w, hw, h⟩ := Exec.bind_eq_ok_iff.1 h
  split at h
  · next hty =>
    obtain ⟨rfl, rfl⟩ := Prod.mk.inj (Except.ok.inj h)
    exact ⟨ty, (List.of_mem_zip hmem).1, hty, op, (List.of_mem_zip hmem).2, hw⟩
  · simp at h

/-- A call puts a frame at the entry of the callee on top. -/
theorem call_eq_ok {dst : Option Reg} {callee : FunctionId} {args : List Operand}
    (h : c.call p f rest dst callee args = .ok d) :
    ∃ fn registers, p callee = some fn ∧
      bindArguments f.registers fn.params args = .ok registers ∧
      d = { c with
        stack := ⟨c.nextCallId, .entry, registers, dst, []⟩ :: { f with pc := f.pc.next } :: rest
        callTable := c.callTable.insert c.nextCallId callee
        nextCallId := c.nextCallId + 1 } := by
  unfold call at h
  obtain ⟨fn, hfn, h⟩ := Exec.bind_eq_ok_iff.1 h
  split at h
  · simp at h
  · obtain ⟨registers, hr, h⟩ := Exec.bind_eq_ok_iff.1 h
    exact ⟨fn, registers, Exec.orStuck_eq_ok_iff.1 hfn, hr, (Except.ok.inj h).symm⟩

/-- A return releases the blocks of its frame and hands the value to the caller. -/
theorem ret_eq_ok {v : Value} (h : c.ret f rest v = .ok d) :
    ∃ memory caller outer, f.stackBlocks.foldlM Memory.free c.memory = .ok memory ∧
      rest = caller :: outer ∧
      d = { c with
        memory
        stack := caller.receive f.retDest v :: outer
        callTable := c.callTable.erase f.callId } := by
  unfold ret at h
  obtain ⟨memory, hmemory, h⟩ := Exec.bind_eq_ok_iff.1 h
  split at h
  · simp at h
  · next caller outer _ =>
    exact ⟨memory, caller, outer, Exec.ofMemory_eq_ok_iff.1 hmemory, rfl, (Except.ok.inj h).symm⟩

/-! ## Steps -/

/-- The ways in which a state goes on to another. -/
inductive Steps (p : Program) (c : Config) : Config → Prop
  | effect {f rest fn i e} (hstack : c.stack = f :: rest)
      (hfetch : c.fetch p f = .ok (fn, .instruction i)) (he : i.Does c.memory f.registers e)
      (hcall : i.category ≠ .call) :
    Steps p c (c.advance f rest i e)
  | call {f rest fn dst callee args target registers} (hstack : c.stack = f :: rest)
      (hfetch : c.fetch p f = .ok (fn, .instruction (.call dst callee args)))
      (hcallee : p callee = some target)
      (hargs : bindArguments f.registers target.params args = .ok registers) :
    Steps p c { c with
      stack := ⟨c.nextCallId, .entry, registers, dst, []⟩ :: { f with pc := f.pc.next } :: rest
      callTable := c.callTable.insert c.nextCallId callee
      nextCallId := c.nextCallId + 1 }
  | jump {f rest fn t source index target values} (hstack : c.stack = f :: rest)
      (hfetch : c.fetch p f = .ok (fn, .terminator t)) (htarget : fn.blocks[index]? = some target)
      (hvalues : f.phiValues source target.phis = .ok values) :
    Steps p c { c with stack :=
      { f with pc := ⟨index, 0⟩, registers := f.registers.insertMany values } :: rest }
  | ret {f caller outer fn val v memory} (hstack : c.stack = f :: caller :: outer)
      (hfetch : c.fetch p f = .ok (fn, .terminator (.ret val)))
      (hval : val.eval f.registers = .ok v)
      (hfree : f.stackBlocks.foldlM Memory.free c.memory = .ok memory)
      (hty : v.hasType fn.retTy = true) :
    Steps p c { c with
      memory
      stack := caller.receive f.retDest v :: outer
      callTable := c.callTable.erase f.callId }

theorem steps_of_jump {fn : FunctionDef} {t : Terminator} {label : String} {g : Frame}
    (hstack : c.stack = f :: rest) (hfetch : c.fetch p f = .ok (fn, .terminator t))
    (h : f.jump fn label = .ok g) : c.Steps p { c with stack := g :: rest } := by
  obtain ⟨index, source, target, values, htarget, hvalues, rfl⟩ := Frame.jump_eq_ok h
  exact .jump hstack hfetch htarget hvalues

theorem steps_of_terminate {fn : FunctionDef} {t : Terminator} (hstack : c.stack = f :: rest)
    (hfetch : c.fetch p f = .ok (fn, .terminator t)) (h : c.terminate f rest fn t = .ok d) :
    c.Steps p d := by
  cases t with
  | br label =>
    obtain ⟨g, hg, h⟩ := Exec.bind_eq_ok_iff.1 h
    obtain rfl := Except.ok.inj h
    exact steps_of_jump hstack hfetch hg
  | condBr cond onTrue onFalse =>
    obtain ⟨v, -, h⟩ := Exec.bind_eq_ok_iff.1 h
    split at h
    · obtain ⟨g, hg, h⟩ := Exec.bind_eq_ok_iff.1 h
      obtain rfl := Except.ok.inj h
      exact steps_of_jump hstack hfetch hg
    · simp at h
    · simp at h
  | ret val =>
    obtain ⟨v, hv, h⟩ := Exec.bind_eq_ok_iff.1 h
    split at h
    · next hty =>
      obtain ⟨memory, caller, outer, hfree, rfl, rfl⟩ := ret_eq_ok h
      exact .ret hstack hfetch hv hfree hty
    · simp at h
  | unreachable => simp [terminate] at h

/-- Every successor of a state, whatever its question was answered, is one of the cases. -/
theorem steps_of_yields (h : (c.step p).Yields (.ok d)) : c.Steps p d := by
  unfold step at h
  split at h
  · simp at h
  · next f rest hstack =>
    obtain ⟨⟨fn, code⟩, hfetch, h⟩ := Ask.yields_after.1 h
    split at h
    · next heq =>
      obtain ⟨rfl, rfl⟩ := Prod.mk.inj heq
      obtain ⟨target, registers, hcallee, hargs, rfl⟩ := call_eq_ok h
      exact .call hstack hfetch hcallee hargs
    · next i hne heq =>
      obtain ⟨rfl, rfl⟩ := Prod.mk.inj heq
      obtain ⟨x, hx, h⟩ := Ask.yields_map.1 h
      obtain ⟨e, rfl, rfl⟩ := Exec.map_eq_ok_iff.1 h
      refine .effect hstack hfetch (Instruction.effect_does hx) (Instruction.category_ne_call ?_)
      rintro dst callee args rfl
      exact hne _ _ _ rfl
    · next heq =>
      obtain ⟨rfl, rfl⟩ := Prod.mk.inj heq
      exact steps_of_terminate hstack hfetch h

/-- At an instruction that is no call, a step is the effect of the instruction. -/
theorem step_instruction {fn : FunctionDef} {i : Instruction} (hstack : c.stack = f :: rest)
    (hfetch : c.fetch p f = .ok (fn, .instruction i)) (hcall : i.category ≠ .call) :
    c.step p = (i.effect c.memory f.registers).map (Except.map fun x => c.advance f rest i x) := by
  unfold step
  rw [hstack]
  dsimp only
  rw [hfetch]
  cases i with
  | call => exact absurd rfl hcall
  | _ => rfl

/-- At a call, a step is the call. -/
theorem step_call {fn : FunctionDef} {dst : Option Reg} {callee : FunctionId} {args : List Operand}
    (hstack : c.stack = f :: rest) (hfetch : c.fetch p f = .ok (fn, .instruction (.call dst callee args))) :
    c.step p = .done (c.call p f rest dst callee args) := by
  unfold step
  rw [hstack]
  dsimp only
  rw [hfetch]
  rfl

theorem step_terminator {fn : FunctionDef} {t : Terminator} (hstack : c.stack = f :: rest)
    (hfetch : c.fetch p f = .ok (fn, .terminator t)) :
    c.step p = .done (c.terminate f rest fn t) := by
  unfold step
  rw [hstack]
  dsimp only
  rw [hfetch]
  rfl

end Config

end PointerSemantics
