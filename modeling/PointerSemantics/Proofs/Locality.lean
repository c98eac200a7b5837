import PointerSemantics.Proofs.Swap.Pairs

/-!
# Instructions are local

What an instruction says it reads and binds is all that it reads and binds. Two states at one instruction
that agree on the registers it reads ask the same question and, whatever the answer, end in the same way
or go on to states that agree on these registers again, and on the one that was bound; all other registers
are what they were (`Config.follow_of_agree`).

A call binds nothing yet: the frame it leaves waits below the one of the callee, and the register for the
result is bound by the return.
-/

namespace PointerSemantics

/-! ## What an instruction leaves alone -/

namespace Instruction

/-- The register that is bound by the instruction itself; that of a call is bound when the callee returns. -/
def Binds (i : Instruction) (r : Reg) : Prop := i.category ≠ .call ∧ i.def? = some r

/-- A frame behind an instruction: it has gone on, and all registers are left but the one bound. -/
structure Leaves (i : Instruction) (f f' : Frame) : Prop where
  callId_eq : f'.callId = f.callId
  retDest_eq : f'.retDest = f.retDest
  pc_eq : f'.pc = f.pc.next
  find?_eq : ∀ r, ¬i.Binds r → f'.registers.find? r = f.registers.find? r

variable {i : Instruction} {m : Memory} {f : Frame}

theorem leaves_advance (hcall : i.category ≠ .call) (e : Effect) : i.Leaves f (f.advance i e) := by
  refine ⟨rfl, rfl, rfl, fun r hr => Frame.find?_advance fun hdef => ?_⟩
  exact hr ⟨hcall, hdef⟩

/-- An instruction that has a destination has a value for it. -/
theorem Does.exists_value {regs : Table Value} {e : Effect} {r : Reg} (h : i.Does m regs e)
    (hdef : i.def? = some r) : ∃ v, e.value = some v := by
  cases h with
  | bind | malloc | alloca => exact ⟨_, rfl⟩
  | store | free => simp [def?] at hdef

end Instruction

namespace Frame

/-- What an instruction binds is the same whatever the registers were. -/
theorem find?_advance_of_binds {f : Frame} {i : Instruction} {e : Effect} {r : Reg} {v : Value}
    (hdef : i.def? = some r) (hv : e.value = some v) :
    (f.advance i e).registers.find? r = some v := by
  unfold advance
  rw [hdef, hv]
  exact (Table.find?_insert _ _ _ _).trans (if_pos rfl)

end Frame

/-! ## States that agree -/

namespace Config

/-- The states are the same but for one frame, `f` in the first and `g` in the second; these are the same
but for their registers, and agree on the ones to be kept. -/
structure Agree (keep : Reg → Prop) (inner outer : List Frame) (f g : Frame) (c d : Config) : Prop where
  stack : c.stack = inner ++ f :: outer
  state_eq : d = { c with stack := inner ++ g :: outer }
  frame_eq : g = { f with registers := g.registers }
  find?_eq : ∀ r, keep r → f.registers.find? r = g.registers.find? r

variable {p : Program} {c d : Config} {f g : Frame} {rest : List Frame} {fn : FunctionDef}
  {i : Instruction}

/-- What two states at an instruction come to: the same end, or states that agree again. A call has put
the same frame on top of both. -/
inductive Follow (i : Instruction) (f g : Frame) (rest : List Frame) : Exec Config → Exec Config → Prop
  | halted (h : Halt) : Follow i f g rest (.error h) (.error h)
  | running (inner : List Frame) (f' g' : Frame) {c d} (hinner : inner.length = if i.category = .call then 1 else 0)
      (hagree : Agree (fun r => r ∈ i.uses ∨ i.Binds r) inner rest f' g' c d)
      (hf : i.Leaves f f') (hg : i.Leaves g g') : Follow i f g rest (.ok c) (.ok d)

theorem Agree.fetch_eq {keep : Reg → Prop} (h : Agree keep [] rest f g c d) :
    d.fetch p g = c.fetch p f := by
  rw [h.state_eq, h.frame_eq]
  rfl

/-- The effect of an instruction, put into states that agree on what it reads. -/
theorem follow_advance (h : Agree (· ∈ i.uses) [] rest f g c d) (hcall : i.category ≠ .call)
    {e : Effect} (he : i.Does c.memory f.registers e) :
    Follow i f g rest (.ok (c.advance f rest i e)) (.ok (d.advance g rest i e)) := by
  have hagree : Agree (fun r => r ∈ i.uses ∨ i.Binds r) [] rest (f.advance i e) (g.advance i e)
      (c.advance f rest i e) (d.advance g rest i e) := by
    refine ⟨rfl, ?_, ?_, fun r hr => ?_⟩
    · rw [h.state_eq]
      rfl
    · rw [h.frame_eq]
      rfl
    · by_cases hdef : i.def? = some r
      · obtain ⟨v, hv⟩ := he.exists_value hdef
        rw [Frame.find?_advance_of_binds hdef hv, Frame.find?_advance_of_binds hdef hv]
      · rw [Frame.find?_advance hdef, Frame.find?_advance hdef]
        exact h.find?_eq r (hr.resolve_right fun hbinds => hdef hbinds.2)
  exact .running [] _ _ (by simp [hcall]) hagree (Instruction.leaves_advance hcall e)
    (Instruction.leaves_advance hcall e)

/-! ## Calls -/

/-- The registers in which a function starts that is called with arguments. -/
def calleeRegisters (p : Program) (regs : Table Value) (callee : FunctionId) (args : List Operand) :
    Exec (Table Value) := do
  let fn ← Exec.orStuck (.unknownFunction callee) (p callee)
  if fn.params.length ≠ args.length then
    Exec.stuck (.arityMismatch callee fn.params.length args.length)
  else bindArguments regs fn.params args

theorem call_eq_map (p : Program) (c : Config) (f : Frame) (rest : List Frame) (dst : Option Reg)
    (callee : FunctionId) (args : List Operand) : c.call p f rest dst callee args =
      (calleeRegisters p f.registers callee args).map fun registers => { c with
        stack := ⟨c.nextCallId, .entry, registers, dst, []⟩ :: { f with pc := f.pc.next } :: rest
        callTable := c.callTable.insert c.nextCallId callee
        nextCallId := c.nextCallId + 1 } := by
  unfold call calleeRegisters
  cases Exec.orStuck (.unknownFunction callee) (p callee) with
  | error h => rfl
  | ok fn =>
    rw [Exec.ok_bind, Exec.ok_bind]
    split
    · rfl
    · exact Exec.bind_pure_eq_map _ _

/-- Only the arguments matter to a call. -/
theorem calleeRegisters_congr {regs regs' : Table Value} {args : List Operand}
    (h : ∀ op ∈ args, op.eval regs = op.eval regs') (p : Program) (callee : FunctionId) :
    calleeRegisters p regs callee args = calleeRegisters p regs' callee args := by
  have hbind : ∀ params, bindArguments regs params args = bindArguments regs' params args := by
    intro params
    unfold bindArguments
    refine congrArg (· >>= _) (Exec.mapM_congr fun x hx => ?_)
    dsimp only
    rw [h x.2 (List.of_mem_zip hx).2]
  unfold calleeRegisters
  simp only [hbind]

theorem follow_call {dst : Option Reg} {callee : FunctionId} {args : List Operand}
    (h : Agree (· ∈ (Instruction.call dst callee args).uses) [] rest f g c d) (p : Program) :
    Follow (.call dst callee args) f g rest (c.call p f rest dst callee args)
      (d.call p g rest dst callee args) := by
  have heval : ∀ op ∈ args, op.eval f.registers = op.eval g.registers :=
    Instruction.eval_congr (i := .call dst callee args) h.find?_eq
  rw [call_eq_map, call_eq_map, calleeRegisters_congr heval]
  cases calleeRegisters p g.registers callee args with
  | error e => exact .halted e
  | ok registers =>
    -- the frame on top starts in the same registers under the same number
    refine .running [⟨c.nextCallId, .entry, registers, dst, []⟩] { f with pc := f.pc.next }
      { g with pc := g.pc.next } rfl ⟨rfl, ?_, ?_, fun r hr => ?_⟩ ⟨rfl, rfl, rfl, fun _ _ => rfl⟩
      ⟨rfl, rfl, rfl, fun _ _ => rfl⟩
    · rw [h.state_eq]
      rfl
    · show Frame.mk _ _ _ _ _ = Frame.mk _ _ _ _ _
      rw [h.frame_eq]
    · exact h.find?_eq r (hr.resolve_right fun hbinds => hbinds.1 rfl)

/-! ## Steps -/

/-- Two states at an instruction that agree on the registers it reads ask the same question, and what
becomes of them is the same but for registers that the instruction neither reads nor binds. Those are as
they were in either state. -/
theorem follow_of_agree (h : Agree (· ∈ i.uses) [] rest f g c d)
    (hfetch : c.fetch p f = .ok (fn, .instruction i)) :
    (c.step p).point? = (d.step p).point? ∧
      ∀ {σ : Type} (o : Oracle σ) (s : σ),
        (o.resolve s (c.step p)).2 = (o.resolve s (d.step p)).2 ∧
          Follow i f g rest (o.resolve s (c.step p)).1 (o.resolve s (d.step p)).1 := by
  have hc : c.stack = f :: rest := h.stack
  have hd : d.stack = g :: rest := by rw [h.state_eq]; rfl
  have hfetch' : d.fetch p g = .ok (fn, .instruction i) := h.fetch_eq.trans hfetch
  by_cases hcall : i.category = .call
  · obtain ⟨dst, callee, args, rfl⟩ := Instruction.exists_eq_call hcall
    rw [step_call hc hfetch, step_call hd hfetch']
    exact ⟨rfl, fun o s => ⟨rfl, follow_call h p⟩⟩
  · have heffect : i.effect d.memory g.registers = i.effect c.memory f.registers := by
      rw [← Instruction.effect_congr h.find?_eq, h.state_eq]
    rw [step_instruction hc hfetch hcall, step_instruction hd hfetch' hcall, heffect]
    refine ⟨by rw [Ask.point?_map, Ask.point?_map], fun o s => ?_⟩
    rw [Oracle.resolve_map, Oracle.resolve_map]
    refine ⟨rfl, ?_⟩
    have hyields := Ask.yields_resolve o s (i.effect c.memory f.registers)
    cases hx : (o.resolve s (i.effect c.memory f.registers)).1 with
    | error e => exact .halted e
    | ok e =>
      rw [hx] at hyields
      exact follow_advance h hcall (Instruction.effect_does hyields)

/-- The frame of the outer function at one of its instructions, with a value in register one. -/
def callerFrame (inst : Nat) (v : Value) : Frame :=
  ⟨0, ⟨0, inst⟩, Table.ofList [(0, .num 8 5), (1, v)], none, []⟩

/-- The state with nothing but that frame. -/
def callerAt (inst : Nat) (v : Value) : Config :=
  { cellStart 0 with stack := [callerFrame inst v] }

/-- Neither the allocation nor the call of the outer function reads register one. The allocation asks the
same question whatever the register holds; the call starts the same inner function and leaves it. -/
theorem callerAt_follow :
    (((callerAt 0 .poison).step cellProgram).point? = some (.alloca 1 [8, 16]) ∧
      ((callerAt 0 .null).step cellProgram).point? = some (.alloca 1 [8, 16])) ∧
    ∃ top c d f g,
      (Oracle.firstFit.resolve () ((callerAt 1 .poison).step cellProgram)).1 = .ok c ∧
      (Oracle.firstFit.resolve () ((callerAt 1 .null).step cellProgram)).1 = .ok d ∧
      c.stack = [top, f] ∧ f.registers.find? 1 = some .poison ∧
      d.stack = [top, g] ∧ g.registers.find? 1 = some .null := by
  constructor
  · have hagree : Agree (· ∈ (Instruction.alloca 1 (.int 8) (.const (.int 8 1))).uses) [] []
        (callerFrame 0 .poison) (callerFrame 0 .null) (callerAt 0 .poison) (callerAt 0 .null) :=
      ⟨rfl, rfl, rfl, nofun⟩
    have hfetch : (callerAt 0 .poison).fetch cellProgram (callerFrame 0 .poison) =
        .ok (callerFunction, .instruction (.alloca 1 (.int 8) (.const (.int 8 1)))) := rfl
    have hpoint : ((callerAt 0 .poison).step cellProgram).point? = some (.alloca 1 [8, 16]) := by
      decide +kernel
    exact ⟨hpoint, (follow_of_agree hagree hfetch).1.symm.trans hpoint⟩
  · have hagree : Agree (· ∈ (Instruction.call (some 2) 1 [.reg 0]).uses) [] [] (callerFrame 1 .poison)
        (callerFrame 1 .null) (callerAt 1 .poison) (callerAt 1 .null) := by
      refine ⟨rfl, rfl, rfl, fun r hr => ?_⟩
      obtain rfl : r = 0 := by simpa [Instruction.uses, Instruction.operands, Operand.reg?] using hr
      rfl
    have hfetch : (callerAt 1 .poison).fetch cellProgram (callerFrame 1 .poison) =
        .ok (callerFunction, .instruction (.call (some 2) 1 [.reg 0])) := rfl
    have hfollow := ((follow_of_agree hagree hfetch).2 Oracle.firstFit ()).2
    obtain ⟨c, hc⟩ : ∃ c, (Oracle.firstFit.resolve () ((callerAt 1 .poison).step cellProgram)).1 =
        .ok c := ⟨_, rfl⟩
    rw [hc] at hfollow
    generalize hd : (Oracle.firstFit.resolve () ((callerAt 1 .null).step cellProgram)).1 = x at hfollow
    cases hfollow with
    | @running inner f g _ d hinner hagree hf hg =>
      obtain ⟨top, rfl⟩ := List.length_eq_one_iff.1 hinner
      have hunbound : ¬(Instruction.call (some 2) 1 [.reg 0]).Binds 1 := fun h => h.1 rfl
      refine ⟨top, c, d, f, g, hc, rfl, hagree.stack, (hf.find?_eq 1 hunbound).trans rfl, ?_,
        (hg.find?_eq 1 hunbound).trans rfl⟩
      rw [hagree.state_eq]
      rfl

end Config

end PointerSemantics
