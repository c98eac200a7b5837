import PointerSemantics.Proofs.Checked.Memory
import PointerSemantics.Proofs.Checked.Operands
import PointerSemantics.Proofs.Runs

/-!
# Steps on words

`Checked.step` executes what the innermost frame is at with words. In a state that a program of closed
functions reaches it does what `Config.step` does (`Config.Coherent.checked_step`): nothing in a step
overflows or is undefined. So such a step is neither stuck for a reason of bookkeeping nor undefined on a
machine (`tracks_and_checked_step_of_nstep`).
-/

namespace PointerSemantics

namespace Checked

/-- Goes on with a result unless the computation has ended. -/
def after {α β : Type} (x : Checked α) (next : α → Ask (Checked β)) : Ask (Checked β) :=
  match x with
  | .ok a => next a
  | .error t => .done (.error t)

theorem after_lift {α β : Type} {x : Exec α} {next : α → Ask (Checked β)} {f : α → Ask (Exec β)}
    (h : ∀ a, x = .ok a → next a = (f a).map lift) : after (lift x) next = (Ask.after x f).map lift := by
  cases x with
  | error e => rfl
  | ok a => exact h a rfl

/-! ## Actions -/

def act (m : Memory) : Action → Ask (Checked Effect)
  | .bind v => .done (.ok (.binding m v))
  | .move p delta inbounds => .done ((movePointer m p delta inbounds).map (.binding m))
  | .distance p q elemSize => .done ((pointerDistance m p q elemSize).map (.binding m))
  | .address p width => .done do return .binding m (← num width (← address m p))
  | .cast n => .done ((pointerOfInt m n).map (.binding m))
  | .compare pred p q => after (ptrHolds? m pred p q) fun
    | some b => .done do return .binding m (← num 1 b.toNat)
    | none => .ask (.pointerCompare pred) fun
      | .compare b => do return .binding m (← num 1 b.toNat)
      | .null | .place _ => lift (Exec.stuck .invalidChoice)
  | .load ty p => .done ((fetchValue m ty p).map (.binding m))
  | .store ty v p => .done ((storeValue m ty v p).map .change)
  | .malloc size => malloc m size
  | .alloca size => alloca m size
  | .free p => .done ((freePointer m p).map .change)

/-- Acting with words is acting, if types and values are as wide as words can be and the counters of memory
have room. -/
theorem act_eq {m : Memory} {a : Action} (hm : m.Usable) (hclock : m.clock < Word.max)
    (hfresh : m.freshId < Word.max) (hload : ∀ ty p, a = .load ty p → ty.bitwidth + 7 < Word.count)
    (hstore : ∀ ty v p, a = .store ty v p → ty.bitwidth + 7 < Word.count ∧ v.Masked) :
    act m a = (a.act m).map lift := by
  have hmemsz := memsz_ne_zero hm
  cases a with
  | bind v => rfl
  | move p delta inbounds => exact congrArg (fun x => Ask.done (Except.map _ x)) (movePointer_eq hmemsz _ _ _)
  | distance p q elemSize => exact congrArg (fun x => Ask.done (Except.map _ x)) (pointerDistance_eq hmemsz _ _ _)
  | cast n => exact congrArg (fun x => Ask.done (Except.map _ x)) (pointerOfInt_eq hmemsz n)
  | address p width =>
    unfold act
    dsimp only
    rw [address_eq hmemsz]
    show _ = Ask.done (lift (((Exec.ofMemory (m.address p)).map _).map _))
    cases m.address p with
    | error e => rfl
    | ok addr =>
      show Ask.done (num width addr >>= _) = _
      rw [num_eq]
      rfl
  | compare pred p q =>
    unfold act Action.act Action.value
    dsimp only
    rw [ptrHolds?_eq hmemsz]
    cases m.ptrHolds? pred p q with
    | some b =>
      show Ask.done (num 1 b.toNat >>= _) = _
      rw [num_toNat]
      rfl
    | none =>
      refine congrArg (Ask.ask _) (funext fun c => ?_)
      cases c with
      | null | place => rfl
      | compare b =>
        show num 1 b.toNat >>= _ = _
        rw [num_toNat]
        rfl
  | load ty p =>
    show Ask.done _ = Ask.done _
    rw [fetchValue_eq hm (hload ty p rfl), ← lift_map]
  | store ty v p =>
    obtain ⟨hty, hv⟩ := hstore ty v p rfl
    show Ask.done _ = Ask.done _
    rw [storeValue_eq hm hty hv, ← lift_map]
  | malloc size => exact malloc_eq hclock hfresh
  | alloca size => exact alloca_eq hclock hfresh
  | free p =>
    show Ask.done _ = Ask.done _
    rw [freePointer_eq hclock, ← lift_map]

/-! ## Moving through the program -/

/-- The place behind, in the same block. -/
def nextPc (pc : Pc) : Checked Pc := do return ⟨pc.block, ← add pc.inst 1⟩

/-- Puts what an instruction of the innermost frame did into the state. -/
def advance (c : Config) (f : Frame) (rest : List Frame) (i : Instruction) (e : Effect) : Checked Config := do
  let pc ← nextPc f.pc
  return { c with memory := e.memory, stack := { f.advance i e with pc } :: rest }

/-- The values of the phis of a block entered from `source`. -/
def phiValues (f : Frame) (source : String) (phis : List Phi) : Checked (List (Reg × Value)) :=
  phis.mapM fun phi => do
    match phi.incoming.find? (·.2 == source) with
    | none => lift (Exec.stuck (.missingPhiIncoming phi.dst))
    | some (op, _) =>
      let v ← operand f.registers op
      if v.hasType phi.ty then return (phi.dst, v)
      else lift (Exec.typeMismatch s!"phi {Reg.text phi.dst} receives {v.text}")

/-- Goes to the start of the block with a label. -/
def jump (f : Frame) (fn : FunctionDef) (label : String) : Checked Frame := do
  match fn.blockIndex? label with
  | none => lift (Exec.stuck (.unknownLabel label))
  | some i =>
    match fn.blocks[f.pc.block]? with
    | none => lift (Exec.stuck (.invalidPc f.pc))
    | some source =>
      let target ← index fn.blocks i
      let values ← phiValues f source.label target.phis
      return { f with pc := ⟨i, 0⟩, registers := f.registers.insertMany values }

/-- The registers of a function called with arguments. -/
def bindArguments (regs : Table Value) (params : List (Reg × Ty)) (args : List Operand) :
    Checked (Table Value) := do
  let bound ← (params.zip args).mapM fun ((r, ty), arg) => do
    let v ← operand regs arg
    if v.hasType ty then return (r, v)
    else lift (Exec.typeMismatch s!"argument {v.text} is not {ty.text}")
  return Table.ofList bound

/-- Starts a function on top of the innermost frame. -/
def call (p : Program) (c : Config) (f : Frame) (rest : List Frame) (dst : Option Reg)
    (callee : FunctionId) (args : List Operand) : Checked Config := do
  let fn ← lift (Exec.orStuck (.unknownFunction callee) (p callee))
  if fn.params.length ≠ args.length then
    lift (Exec.stuck (.arityMismatch callee fn.params.length args.length))
  else
    let registers ← bindArguments f.registers fn.params args
    let pc ← nextPc f.pc
    let nextCallId ← add c.nextCallId 1
    return { c with
      stack := ⟨c.nextCallId, .entry, registers, dst, []⟩ :: { f with pc } :: rest
      callTable := c.callTable.insert c.nextCallId callee
      nextCallId }

/-- Ends the innermost frame. -/
def ret (c : Config) (f : Frame) (rest : List Frame) (v : Value) : Checked Config := do
  let memory ← f.stackBlocks.foldlM free c.memory
  match rest with
  | [] => lift (.error (.finished v))
  | caller :: rest =>
    let registers :=
      match f.retDest with
      | some dst => caller.registers.insert dst v
      | none => caller.registers
    return { c with
      memory
      stack := { caller with registers } :: rest
      callTable := c.callTable.erase f.callId }

/-- Executes the terminator of a block. -/
def terminate (c : Config) (f : Frame) (rest : List Frame) (fn : FunctionDef) (t : Terminator) :
    Checked Config :=
  match t with
  | .br label => do return { c with stack := (← jump f fn label) :: rest }
  | .condBr cond onTrue onFalse => do
    match ← operand f.registers cond with
    | .num 1 bits =>
      return { c with stack := (← jump f fn (if bits = 1 then onTrue else onFalse)) :: rest }
    | .poison => lift (Exec.wrong .poisonBranch)
    | v => lift (Exec.typeMismatch s!"branch on {v.text}")
  | .ret val => do
    let v ← operand f.registers val
    if v.hasType fn.retTy then ret c f rest v
    else lift (Exec.typeMismatch s!"return of {v.text} as {fn.retTy.text}")
  | .unreachable => lift (Exec.wrong .unreachable)

/-- Executes what the innermost frame is at. -/
def step (p : Program) (c : Config) : Ask (Checked Config) :=
  match c.stack with
  | [] => .done (lift (Exec.stuck .emptyStack))
  | f :: rest =>
    after (lift (c.fetch p f)) fun
      | (_, .instruction (.call dst callee args)) => .done (call p c f rest dst callee args)
      | (_, .instruction i) =>
        after (prepare f.registers i) fun a =>
          (act c.memory a).map fun e => do advance c f rest i (← e)
      | (fn, .terminator t) => .done (terminate c f rest fn t)

section Agreement

variable {p : Program} {c : Config} {f : Frame} {rest : List Frame} {fn : FunctionDef}

theorem nextPc_eq {pc : Pc} (h : pc.inst + 1 < Word.count) : nextPc pc = .ok pc.next := by
  unfold nextPc
  rw [add_eq h]
  rfl

theorem advance_eq (h : f.pc.inst + 1 < Word.count) (i : Instruction) (e : Effect) :
    advance c f rest i e = .ok (c.advance f rest i e) := by
  unfold advance
  rw [nextPc_eq h]
  rfl

theorem phiValues_eq (f : Frame) (source : String) (phis : List Phi) :
    phiValues f source phis = lift (f.phiValues source phis) := by
  refine mapM_congr fun phi _ => ?_
  cases phi.incoming.find? (·.2 == source) with
  | none => rfl
  | some x =>
    dsimp only
    rw [operand_eq]
    refine bind_congr fun v _ => ?_
    rw [lift_ite]
    rfl

theorem jump_eq (f : Frame) (fn : FunctionDef) (label : String) :
    jump f fn label = lift (f.jump fn label) := by
  unfold jump Frame.jump
  cases hindex : fn.blockIndex? label with
  | none => rfl
  | some i =>
    obtain ⟨hlt, -⟩ := List.findIdx?_eq_some_iff_getElem.1 hindex
    have htarget : fn.blocks[i]? = some fn.blocks[i] := List.getElem?_eq_getElem hlt
    unfold index
    dsimp only
    rw [htarget]
    cases fn.blocks[f.pc.block]? with
    | none => rfl
    | some source =>
      dsimp only
      rw [ok_bind, phiValues_eq]
      exact bind_congr fun values _ => rfl

theorem bindArguments_eq (regs : Table Value) (params : List (Reg × Ty)) (args : List Operand) :
    bindArguments regs params args = lift (Config.bindArguments regs params args) := by
  have hbound : ∀ x ∈ params.zip args, (do
      let v ← operand regs x.2
      if v.hasType x.1.2 then return (x.1.1, v)
      else lift (Exec.typeMismatch s!"argument {v.text} is not {x.1.2.text}")) = lift (do
      let v ← x.2.eval regs
      if v.hasType x.1.2 then return (x.1.1, v)
      else Exec.typeMismatch s!"argument {v.text} is not {x.1.2.text}") := by
    intro x _
    rw [operand_eq]
    refine bind_congr fun v _ => ?_
    rw [lift_ite]
    rfl
  unfold bindArguments Config.bindArguments
  rw [mapM_congr hbound]
  exact bind_congr fun bound _ => rfl

theorem call_eq (hcall : c.nextCallId < Word.max) (hpc : f.pc.inst + 1 < Word.count) (dst : Option Reg)
    (callee : FunctionId) (args : List Operand) :
    call p c f rest dst callee args = lift (c.call p f rest dst callee args) := by
  have hcall' : c.nextCallId + 1 < Word.count := Nat.add_lt_of_lt_sub hcall
  refine bind_congr fun fn _ => ?_
  rw [lift_ite, bindArguments_eq]
  refine if_congr Iff.rfl rfl (bind_congr fun registers _ => ?_)
  rw [nextPc_eq hpc, ok_bind, add_eq hcall']
  rfl

theorem ret_eq (hclock : c.memory.clock + f.stackBlocks.length ≤ Word.max) (v : Value) :
    ret c f rest v = lift (c.ret f rest v) := by
  unfold ret Config.ret
  rw [freeAll_eq hclock]
  refine bind_congr fun memory _ => ?_
  cases rest <;> rfl

theorem terminate_eq {t : Terminator}
    (hclock : ∀ val, t = .ret val → c.memory.clock + f.stackBlocks.length ≤ Word.max) :
    terminate c f rest fn t = lift (c.terminate f rest fn t) := by
  cases t with
  | br label =>
    unfold terminate Config.terminate
    dsimp only
    rw [jump_eq]
    exact bind_congr fun g _ => rfl
  | condBr cond onTrue onFalse =>
    unfold terminate Config.terminate
    dsimp only
    rw [operand_eq]
    refine bind_congr fun v _ => ?_
    cases v with
    | ptr | poison => rfl
    | num w bits =>
      rcases w with _ | _ | w
      · rfl
      · show jump _ _ _ >>= _ = _
        rw [jump_eq]
        exact bind_congr fun g _ => rfl
      · rfl
  | ret val =>
    unfold terminate Config.terminate
    dsimp only
    rw [operand_eq]
    refine bind_congr fun v _ => ?_
    rw [lift_ite, ret_eq (hclock val rfl)]
  | unreachable => rfl

end Agreement

end Checked

/-! ## Reachable states -/

/-- The function fits into a machine: types have widths of 32 bits, and instructions can be counted. -/
structure FunctionDef.Fits (fn : FunctionDef) : Prop where
  widths : ∀ b ∈ fn.blocks, ∀ i ∈ b.instructions, ∀ ty ∈ i.sizedTypes, ty.bitwidth < 2 ^ 32
  instructions : ∀ b ∈ fn.blocks, b.instructions.length < Word.count

theorem FunctionDef.Fits.bitwidth {fn : FunctionDef} (h : fn.Fits) {pc : Pc} {i : Instruction}
    (hcode : fn.codeAt? pc = some (.instruction i)) : ∀ ty ∈ i.sizedTypes, ty.bitwidth + 7 < Word.count := by
  obtain ⟨b, hb, hi⟩ := codeAt?_instruction hcode
  intro ty hty
  have hlt := h.widths b (List.mem_of_getElem? hb) i (List.mem_of_getElem? hi) ty hty
  exact Nat.lt_trans (Nat.add_lt_add_right hlt 7) (by decide)

theorem FunctionDef.Fits.inst {fn : FunctionDef} (h : fn.Fits) {pc : Pc} {i : Instruction}
    (hcode : fn.codeAt? pc = some (.instruction i)) : pc.inst + 1 < Word.count := by
  obtain ⟨b, hb, hi⟩ := codeAt?_instruction hcode
  exact Nat.lt_of_le_of_lt (List.getElem?_eq_some_iff.1 hi).1 (h.instructions b (List.mem_of_getElem? hb))

namespace Config

variable {p : Program} {c d : Config} {f : Frame} {rest : List Frame}

/-- How many blocks the next step releases on a return. -/
def releases (p : Program) (c : Config) : Nat :=
  match c.stack with
  | [] => 0
  | f :: _ =>
    match c.fetch p f with
    | .ok (_, .terminator (.ret _)) => f.stackBlocks.length
    | _ => 0

/-- No counter is at the largest word before the next step counts. -/
structure CountersFit (p : Program) (c : Config) : Prop where
  freshId : c.memory.freshId < Word.max
  nextCallId : c.nextCallId < Word.max
  clock : c.memory.clock + max (c.releases p) 1 ≤ Word.max

theorem CountersFit.clock_lt (h : c.CountersFit p) : c.memory.clock < Word.max :=
  Nat.lt_of_lt_of_le (Nat.lt_add_of_pos_right (Nat.le_max_right _ _)) h.clock

theorem Coherent.checked_effect (h : c.Coherent p) (hcounters : c.CountersFit p) (hstack : c.stack = f :: rest)
    {i : Instruction} (hpc : f.pc.inst + 1 < Word.count)
    (hsizes : ∀ ty ∈ i.sizedTypes, ty.bitwidth + 7 < Word.count) :
    (Checked.after (Checked.prepare f.registers i) fun a =>
      (Checked.act c.memory a).map fun e => do Checked.advance c f rest i (← e)) =
      ((i.effect c.memory f.registers).map (Except.map fun e => c.advance f rest i e)).map Checked.lift := by
  have hregs : ∀ r v, f.registers.find? r = some v → v.Masked := fun _ _ => h.masked.top hstack
  rw [Checked.prepare_eq hregs hsizes, Instruction.effect_eq_act]
  cases hprepare : i.prepare f.registers with
  | error e => rfl
  | ok a =>
    have hprepares := Instruction.prepares_of_prepare hprepare
    have hload : ∀ ty q, a = .load ty q → ty.bitwidth + 7 < Word.count := by
      rintro ty q rfl
      cases hprepares
      exact hsizes ty List.mem_cons_self
    have hstore : ∀ ty v q, a = .store ty v q → ty.bitwidth + 7 < Word.count ∧ v.Masked := by
      rintro ty v q rfl
      cases hprepares with
      | store hv => exact ⟨hsizes ty List.mem_cons_self, Operand.masked_eval hregs hv⟩
    show (Checked.act c.memory a).map _ = ((a.act c.memory).map _).map _
    rw [Checked.act_eq h.sound.memory.usable hcounters.clock_lt hcounters.freshId hload hstore, Ask.map_map,
      Ask.map_map]
    refine congrFun (congrArg Ask.map (funext fun r => ?_)) _
    cases r with
    | error e => rfl
    | ok e => exact Checked.advance_eq hpc i e

/-- Nothing in the next step overflows or is undefined. -/
theorem Coherent.checked_step (h : c.Coherent p) (hp : ∀ id fn, p id = some fn → fn.Fits)
    (hcounters : c.CountersFit p) : Checked.step p c = (c.step p).map Checked.lift := by
  obtain ⟨f, rest, hstack⟩ := List.exists_cons_of_ne_nil h.stack
  unfold Checked.step step
  rw [hstack]
  dsimp only
  refine Checked.after_lift fun x hfetch => ?_
  obtain ⟨fn, code⟩ := x
  obtain ⟨id, -, hfn, hcode⟩ := fetch_eq_ok_iff.1 hfetch
  cases code with
  | terminator t =>
    -- only a return counts, once for each block that it releases
    refine congrArg Ask.done (Checked.terminate_eq fun val hval => ?_)
    have hreleases : c.releases p = f.stackBlocks.length := by
      unfold releases
      rw [hstack]
      dsimp only
      rw [hfetch, hval]
    exact Nat.le_trans (Nat.add_le_add_left (hreleases ▸ Nat.le_max_left _ _) _) hcounters.clock
  | instruction i =>
    have hpc := (hp id fn hfn).inst hcode
    have heffect := h.checked_effect hcounters hstack hpc ((hp id fn hfn).bitwidth hcode)
    cases i with
    | call dst callee args => exact congrArg Ask.done (Checked.call_eq hcounters.nextCallId hpc dst callee args)
    | _ => exact heffect

end Config

theorem Checked.lift_ne_undefined {α : Type} (x : Exec α) : lift x ≠ .error .undefined := by
  cases x with
  | error h => exact nofun
  | ok a => exact nofun

section Run

variable {σ : Type} {p : Program} {o : Oracle σ} {c d : Config} {s : σ} {n : Nat}

/-- The interpreter is never stuck on its own bookkeeping. Of a program whose functions were built, in
every state that a run reaches, the next step is not stuck for a reason of bookkeeping if it is answered
legally. Nor is anything undefined in it when it is done with words, and then its result is the same. -/
theorem tracks_and_checked_step_of_nstep {entry : FunctionId} {args : List Value} {config : MemConfig}
    (hp : ∀ id fn, p id = some fn → (∃ b : Builder, b.build = .ok fn) ∧ fn.Fits)
    (hargs : ∀ v ∈ args, (Memory.empty config).valueWf v = true)
    (hinitial : Config.initial p entry args config = .ok c)
    (h : (nstep p o n c s).1.outcome = .running d) (hcounters : d.CountersFit p) :
    (∀ (τ : Type) (o' : Oracle τ) (t : τ), o'.Admitted →
      ∀ reason, (o'.resolve t (d.step p)).1 = .error (.stuck reason) → reason.isBookkeeping = false) ∧
      (∀ (τ : Type) (o' : Oracle τ) (t : τ), (o'.resolve t (Checked.step p d)).1 ≠ .error .undefined) ∧
      Checked.step p d = (d.step p).map Checked.lift := by
  have hclosed : Config.ProgramClosed p := by
    intro id fn hfn
    obtain ⟨⟨b, hb⟩, -⟩ := hp id fn hfn
    exact Builder.closed_of_build hb
  have hd : d.Coherent p := by
    refine nstep_invariant (fun c d hc hcd => hcd.coherent hclosed hc) ?_ h
    exact Config.coherent_initial hinitial hclosed hargs
  have hchecked := hd.checked_step (fun id fn hfn => (hp id fn hfn).2) hcounters
  refine ⟨fun τ o' t ho' reason hstuck => ?_, fun τ o' t => ?_, hchecked⟩
  · have hmem := o'.resolve_mem_results t (d.step p) fun point => ho' point t
    rw [hstuck] at hmem
    exact hd.fails_step hclosed hmem
  · rw [hchecked, Oracle.resolve_map]
    exact Checked.lift_ne_undefined _

/-- The inner call has stored into its cell and loaded from it, and is about to return. -/
theorem cell_tracks_and_checked_step :
    ∃ d, (nstep cellProgram Oracle.firstFit 6 (cellStart 0) ()).1.outcome = .running d ∧
      d.releases cellProgram = 1 ∧
      (∀ reason, (Oracle.firstFit.resolve () (d.step cellProgram)).1 = .error (.stuck reason) →
        reason.isBookkeeping = false) ∧
      Checked.step cellProgram d = (d.step cellProgram).map Checked.lift := by
  have hp : ∀ id fn, cellProgram id = some fn → (∃ b : Builder, b.build = .ok fn) ∧ fn.Fits := by
    intro id fn hfn
    rcases id with - | - | id
    · obtain rfl := Option.some.inj hfn
      refine ⟨⟨⟨"caller", [(0, .int 8)], .int 8, [⟨"entry", [], [.alloca 1 (.int 8) (.const (.int 8 1)),
        .call (some 2) 1 [.reg 0]], some (.ret (.reg 2))⟩], 3⟩, by decide +kernel⟩, ⟨by decide, by decide⟩⟩
    · obtain rfl := Option.some.inj hfn
      refine ⟨⟨⟨"cell", [(0, .int 8)], .int 8, [⟨"entry", [], [.alloca 1 (.int 8) (.const (.int 8 1)),
        .binOp 2 .add (.int 8) (.reg 0) (.const (.int 8 1)), .store (.int 8) (.reg 2) (.reg 1),
        .load 3 (.int 8) (.reg 1)], some (.ret (.reg 3))⟩], 4⟩, by decide +kernel⟩, ⟨by decide, by decide⟩⟩
    · simp [cellProgram] at hfn
  have hargs : ∀ v ∈ [Value.num 8 5], (Memory.empty cellConfig).valueWf v = true := by decide
  have hinitial : Config.initial cellProgram 0 [.num 8 5] cellConfig = .ok (cellStart 0) := rfl
  have hcounters : ((nstep cellProgram Oracle.firstFit 6 (cellStart 0) ()).1.outcome.state?.any fun d =>
      d.releases cellProgram == 1 && d.memory.freshId < Word.max && d.nextCallId < Word.max &&
        d.memory.clock + 1 ≤ Word.max) = true := by decide +kernel
  obtain ⟨d, h, hcounters⟩ := (Option.any_eq_true ..).1 hcounters
  simp only [Bool.and_eq_true, beq_iff_eq, decide_eq_true_eq] at hcounters
  obtain ⟨⟨⟨hreleases, hfresh⟩, hcall⟩, hclock⟩ := hcounters
  rw [Outcome.state?_eq_some_iff] at h
  have hfits : d.CountersFit cellProgram := ⟨hfresh, hcall, by rw [hreleases]; exact hclock⟩
  obtain ⟨htracks, -, hchecked⟩ := tracks_and_checked_step_of_nstep hp hargs hinitial h hfits
  exact ⟨d, h, hreleases, htracks Unit .firstFit () fun point _ => point.admits_firstFit, hchecked⟩

end Run

end PointerSemantics
