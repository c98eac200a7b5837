import Mathlib.Data.List.Chain
import PointerSemantics.Proofs.Definitions
import PointerSemantics.Proofs.Reachable

/-!
# Typed registers

A register that is present holds a value of the type of its definition (`FunctionDef.Typed`). Within
a frame this rests on the tests that instructions, phis and calls make. A returned value crosses
from one frame to the next, so the invariant also says of neighbours on the stack that the register
which waits for the value is defined with the type that the function above returns
(`Config.Returns`).
-/

namespace PointerSemantics

variable {p : Program}

/-! ## Registers of one frame -/

/-- Every register present has a definition of a type that its value has. -/
def FunctionDef.Typed (p : Program) (fn : FunctionDef) (regs : Table Value) : Prop :=
  ∀ r v, regs.find? r = some v → ∃ ty, (r, some ty) ∈ fn.definitions p ∧ v.hasType ty = true

namespace FunctionDef

variable {fn : FunctionDef} {regs : Table Value}

theorem Typed.insert {r : Reg} {v : Value} {ty : Ty} (h : fn.Typed p regs)
    (hr : (r, some ty) ∈ fn.definitions p) (hv : v.hasType ty = true) :
    fn.Typed p (regs.insert r v) := by
  intro s w hs
  rw [Table.find?_insert] at hs
  split at hs
  · next heq =>
    obtain rfl := Option.some.inj hs
    exact ⟨ty, heq ▸ hr, hv⟩
  · exact h s w hs

theorem Typed.advance {f : Frame} {m : Memory} {i : Instruction} {e : Effect} {pc : Pc}
    (h : fn.Typed p f.registers) (hcode : fn.codeAt? pc = some (.instruction i))
    (he : i.Does m f.registers e) (hcall : i.category ≠ .call) :
    fn.Typed p (f.advance i e).registers := by
  unfold Frame.advance
  dsimp only
  split
  · next dst v hdst hv =>
    obtain ⟨ty, hty, hi⟩ := Instruction.exists_valueTy? hcall hdst
    exact h.insert (mem_definitions_of_codeAt? hcode hi) (he.hasType hty hv)
  · exact h

theorem Typed.insertMany {f : Frame} {source : String} {target : BasicBlock}
    {values : List (Reg × Value)} (h : fn.Typed p f.registers) (htarget : target ∈ fn.blocks)
    (hvalues : f.phiValues source target.phis = .ok values) :
    fn.Typed p (f.registers.insertMany values) := by
  intro r v hv
  rcases Table.find?_insertMany hv with hv | hmem
  · exact h r v hv
  · obtain ⟨phi, hphi, rfl, hty, -⟩ := Frame.mem_phiValues hvalues hmem
    exact ⟨phi.ty, mem_definitions_of_phi htarget hphi, hty⟩

theorem typed_of_bindArguments {bound : Table Value} {args : List Operand}
    (h : Config.bindArguments regs fn.params args = .ok bound) : fn.Typed p bound := by
  intro r v hv
  obtain ⟨ty, hmem, hty, -⟩ := Config.mem_bindArguments h hv
  exact ⟨ty, mem_definitions_of_param hmem, hty⟩

/-- Values bound to parameters of their types are typed. -/
theorem typed_of_zip {args : List Value}
    (h : ∀ r ty v, ((r, ty), v) ∈ fn.params.zip args → v.hasType ty = true) :
    fn.Typed p (.ofList ((fn.params.map (·.1)).zip args)) := by
  intro r v hv
  have hmem := Table.find?_ofList hv
  rw [List.zip_map_left, List.mem_map] at hmem
  obtain ⟨⟨⟨r', ty⟩, v'⟩, hmem, heq⟩ := hmem
  obtain ⟨rfl, rfl⟩ := Prod.mk.inj heq
  exact ⟨ty, mem_definitions_of_param (List.of_mem_zip hmem).1, h _ _ _ hmem⟩

end FunctionDef

namespace Config

variable {c d : Config} {f g : Frame} {rest : List Frame}

/-! ## Frames and their neighbours -/

/-- The function that runs in a call. -/
def function? (p : Program) (c : Config) (k : CallId) : Option FunctionDef :=
  (c.callTable.find? k).bind p

theorem function?_of_fetch {fn : FunctionDef} {code : Code} (h : c.fetch p f = .ok (fn, code)) :
    c.function? p f.callId = some fn ∧ fn.codeAt? f.pc = some code := by
  obtain ⟨id, hid, hfn, hcode⟩ := fetch_eq_ok_iff.1 h
  refine ⟨?_, hcode⟩
  unfold function?
  rw [hid]
  exact hfn

theorem function?_new {callee : FunctionId} {target : FunctionDef} (hcallee : p callee = some target)
    (hd : d.callTable = c.callTable.insert c.nextCallId callee) :
    d.function? p c.nextCallId = some target := by
  unfold function?
  rw [hd, Table.find?_insert, if_pos rfl]
  exact hcallee

/-- A call does not change which functions run in the calls there were. -/
theorem CallsWf.function?_insert (h : c.CallsWf) (hf : f ∈ c.stack) {callee : FunctionId}
    (hd : d.callTable = c.callTable.insert c.nextCallId callee) :
    d.function? p f.callId = c.function? p f.callId := by
  unfold function?
  rw [hd, h.find?_insert hf]

/-- A return does not change which functions run in the calls that are left. -/
theorem CallsWf.function?_erase (h : c.CallsWf) (hstack : c.stack = f :: rest) (hg : g ∈ rest)
    (hd : d.callTable = c.callTable.erase f.callId) :
    d.function? p g.callId = c.function? p g.callId := by
  unfold function?
  rw [hd, h.find?_erase hstack hg]

/-- The frame runs a known function, in which its registers are typed. -/
def TypedFrame (p : Program) (c : Config) (f : Frame) : Prop :=
  ∃ fn, c.function? p f.callId = some fn ∧ fn.Typed p f.registers

/-- The register of frame `g` that takes the value of frame `f` has the type of that value. -/
def Returns (p : Program) (c : Config) (f g : Frame) : Prop :=
  ∀ dst, f.retDest = some dst → ∃ fn gn, c.function? p f.callId = some fn ∧
    c.function? p g.callId = some gn ∧ (dst, some fn.retTy) ∈ gn.definitions p

theorem TypedFrame.congr (h : c.TypedFrame p f)
    (hf : d.function? p f.callId = c.function? p f.callId) : d.TypedFrame p f := by
  obtain ⟨fn, hfn, hregs⟩ := h
  exact ⟨fn, hf.trans hfn, hregs⟩

theorem Returns.congr (h : c.Returns p f g) (hf : d.function? p f.callId = c.function? p f.callId)
    (hg : d.function? p g.callId = c.function? p g.callId) : d.Returns p f g := by
  intro dst hdst
  obtain ⟨fn, gn, hfn, hgn, hmem⟩ := h dst hdst
  exact ⟨fn, gn, hf.trans hfn, hg.trans hgn, hmem⟩

/-- The caller is typed still when it has received the value. -/
theorem TypedFrame.receive {fn : FunctionDef} {v : Value} (h : c.TypedFrame p g)
    (hreturn : c.Returns p f g) (hfn : c.function? p f.callId = some fn)
    (hv : v.hasType fn.retTy = true) : c.TypedFrame p (g.receive f.retDest v) := by
  obtain ⟨gn, hgn, hregs⟩ := h
  refine ⟨gn, hgn, ?_⟩
  unfold Frame.receive
  dsimp only
  split
  · next dst hdst =>
    obtain ⟨fn', gn', hfn', hgn', hmem⟩ := hreturn dst hdst
    obtain rfl := Option.some.inj (hfn'.symm.trans hfn)
    obtain rfl := Option.some.inj (hgn'.symm.trans hgn)
    exact hregs.insert hmem hv
  · exact hregs

/-- Every frame is typed and fits the one that it returns to. -/
structure Typed (p : Program) (c : Config) : Prop where
  frames : ∀ f ∈ c.stack, c.TypedFrame p f
  returns : c.stack.IsChain (c.Returns p)

/-! ## Steps -/

theorem Typed.top (h : c.Typed p) (hstack : c.stack = f :: rest) {fn : FunctionDef} {code : Code}
    (hfetch : c.fetch p f = .ok (fn, code)) : fn.Typed p f.registers := by
  obtain ⟨fn', hfn', hregs⟩ := h.frames f (hstack ▸ List.mem_cons_self)
  obtain rfl := Option.some.inj (hfn'.symm.trans (function?_of_fetch hfetch).1)
  exact hregs

/-- Neighbours fit as long as the call table says the same of them, whatever is done to the
uppermost frame in its own call. -/
theorem isChain_returns (h : (f :: rest).IsChain (c.Returns p)) (hcall : g.callId = f.callId)
    (hdest : g.retDest = f.retDest)
    (hkeep : ∀ f' ∈ f :: rest, d.function? p f'.callId = c.function? p f'.callId) :
    (g :: rest).IsChain (d.Returns p) := by
  have hd : (f :: rest).IsChain (d.Returns p) :=
    h.imp_of_mem_imp fun f₁ f₂ h₁ h₂ h' => h'.congr (hkeep f₁ h₁) (hkeep f₂ h₂)
  refine hd.imp_head fun h' dst hdst => ?_
  rw [hdest] at hdst
  rw [hcall]
  exact h' dst hdst

/-- A change to the innermost frame that only binds registers keeps the state typed. -/
theorem Typed.replaceTop (h : c.Typed p) (hstack : c.stack = f :: rest) (hd : d.stack = g :: rest)
    {fn : FunctionDef} {code : Code} (hfetch : c.fetch p f = .ok (fn, code))
    (hcall : g.callId = f.callId) (hdest : g.retDest = f.retDest)
    (htable : d.callTable = c.callTable) (hregs : fn.Typed p g.registers) : d.Typed p := by
  have hfunction : ∀ k, d.function? p k = c.function? p k := by
    intro k
    unfold function?
    rw [htable]
  have hreturns := h.returns
  rw [hstack] at hreturns
  refine ⟨fun g' hg' => ?_, ?_⟩
  · rw [hd] at hg'
    rcases List.mem_cons.1 hg' with rfl | hg'
    · refine ⟨fn, ?_, hregs⟩
      rw [hfunction, hcall]
      exact (function?_of_fetch hfetch).1
    · exact (h.frames g' (hstack ▸ List.mem_cons_of_mem _ hg')).congr (hfunction _)
  · rw [hd]
    exact isChain_returns hreturns hcall hdest fun _ _ => hfunction _

theorem Steps.typed (h : c.Steps p d) (hcalls : c.CallsWf) (hc : c.Typed p) : d.Typed p := by
  have hreturns := hc.returns
  cases h with
  | @effect f rest fn i e hstack hfetch he hcall =>
    have hregs := (hc.top hstack hfetch).advance (function?_of_fetch hfetch).2 he hcall
    exact hc.replaceTop hstack rfl hfetch rfl rfl rfl hregs
  | @jump f rest fn t source index target values hstack hfetch htarget hvalues =>
    have hregs := (hc.top hstack hfetch).insertMany (List.mem_of_getElem? htarget) hvalues
    exact hc.replaceTop hstack rfl hfetch rfl rfl rfl hregs
  | @call f rest fn dst callee args target registers hstack hfetch hcallee hargs =>
    obtain ⟨hfn, hcode⟩ := function?_of_fetch hfetch
    rw [hstack] at hreturns
    have hf : f ∈ c.stack := hstack ▸ List.mem_cons_self
    refine ⟨fun g hg => ?_, List.isChain_cons_cons.2 ⟨?_, ?_⟩⟩
    · rcases List.mem_cons.1 hg with rfl | hg
      · exact ⟨target, function?_new hcallee rfl, FunctionDef.typed_of_bindArguments hargs⟩
      · rcases List.mem_cons.1 hg with rfl | hg
        · exact ⟨fn, (hcalls.function?_insert hf rfl).trans hfn, hc.top hstack hfetch⟩
        · have hgc : g ∈ c.stack := hstack ▸ List.mem_cons_of_mem _ hg
          exact (hc.frames g hgc).congr (hcalls.function?_insert hgc rfl)
    · -- the call itself defines the register that waits, with the type that the callee returns
      intro dst' hdst
      obtain rfl : dst = some dst' := hdst
      refine ⟨target, fn, function?_new hcallee rfl, (hcalls.function?_insert hf rfl).trans hfn, ?_⟩
      refine FunctionDef.mem_definitions_of_codeAt? hcode ?_
      simp [Instruction.definition?, Instruction.def?, hcallee]
    · refine isChain_returns hreturns rfl rfl fun g hg => ?_
      exact hcalls.function?_insert (hstack ▸ hg) rfl
  | @ret f caller outer fn val v memory hstack hfetch hval hfree hty =>
    obtain ⟨hfn, -⟩ := function?_of_fetch hfetch
    rw [hstack, List.isChain_cons_cons] at hreturns
    obtain ⟨hreturn, hreturns⟩ := hreturns
    refine ⟨fun g hg => ?_, ?_⟩
    · rcases List.mem_cons.1 hg with rfl | hg
      · have hcaller := hc.frames caller (by rw [hstack]; simp)
        exact (hcaller.receive hreturn hfn hty).congr
          (hcalls.function?_erase (g := caller) hstack List.mem_cons_self rfl)
      · exact (hc.frames g (by rw [hstack]; simp [hg])).congr
          (hcalls.function?_erase hstack (List.mem_cons_of_mem _ hg) rfl)
    · refine isChain_returns hreturns rfl rfl fun g hg => ?_
      exact hcalls.function?_erase hstack hg rfl

/-! ## Starting -/

theorem typed_initial {entry : FunctionId} {args : List Value} {config : MemConfig}
    (h : initial p entry args config = .ok c) : c.Typed p := by
  obtain ⟨-, fn, hfn, hargs, rfl⟩ := initial_eq_ok h
  refine ⟨fun f hf => ?_, List.isChain_singleton _⟩
  obtain rfl := List.mem_singleton.1 hf
  exact ⟨fn, hfn, FunctionDef.typed_of_zip hargs⟩

end Config

/-! ## Runs -/

section Run

variable {σ : Type} {o : Oracle σ} {c d : Config} {s : σ} {n : Nat}

/-- In every state that a program of finished functions reaches, a register holds a value of the
type of its definition, and there is one definition of it in the function of the frame. -/
theorem typed_registers_of_nstep {entry : FunctionId} {args : List Value} {config : MemConfig}
    (hp : ∀ id fn, p id = some fn → ∃ b : Builder, b.Made ∧ b.build = .ok fn)
    (hinitial : Config.initial p entry args config = .ok c)
    (h : (nstep p o n c s).1.outcome = .running d) :
    ∀ f ∈ d.stack, ∃ id fn, d.callTable.find? f.callId = some id ∧ p id = some fn ∧
      ((fn.definitions p).map (·.1)).Nodup ∧
      ∀ r v, f.registers.find? r = some v →
        ∃ ty, (r, some ty) ∈ fn.definitions p ∧ v.hasType ty = true := by
  have hd : d.CallsWf ∧ d.Typed p := by
    refine nstep_invariant (I := fun c => c.CallsWf ∧ c.Typed p) ?_ ?_ h
    · exact fun c d hc hcd => ⟨hcd.callsWf hc.1, hcd.typed hc.1 hc.2⟩
    · exact ⟨Config.callsWf_initial hinitial, Config.typed_initial hinitial⟩
  intro f hf
  obtain ⟨fn, hfunction, hregs⟩ := hd.2.frames f hf
  obtain ⟨id, hid, hfn⟩ := Option.bind_eq_some_iff.1 hfunction
  obtain ⟨b, hmade, hbuild⟩ := hp id fn hfn
  exact ⟨id, fn, hid, hfn, hmade.nodup_definitions hbuild, hregs⟩

end Run

/-! ## The small program -/

theorem exists_made_cell : ∃ b : Builder, b.Made ∧ b.build = .ok cellFunction := by
  have hentry := ((Builder.Made.new "cell" (.int 8)).param (.int 8)).block "entry"
  have halloca := hentry.pushDef fun r => .alloca r (.int 8) (.const (.int 8 1))
  have hadd := halloca.pushDef fun r => .binOp r .add (.int 8) (.reg 0) (.const (.int 8 1))
  have hstore := hadd.push (i := .store (.int 8) (.reg 2) (.reg 1)) rfl
  have hload := hstore.pushDef fun r => .load r (.int 8) (.reg 1)
  exact ⟨_, hload.terminate (t := .ret (.reg 3)) rfl, rfl⟩

theorem exists_made_caller : ∃ b : Builder, b.Made ∧ b.build = .ok callerFunction := by
  have hentry := ((Builder.Made.new "caller" (.int 8)).param (.int 8)).block "entry"
  have halloca := hentry.pushDef fun r => .alloca r (.int 8) (.const (.int 8 1))
  have hcall := halloca.pushDef fun r => .call (some r) 1 [.reg 0]
  exact ⟨_, hcall.terminate (t := .ret (.reg 2)) rfl, rfl⟩

/-- The state after the inner call has returned to its caller. -/
def cellReturned : Config :=
  (nstep cellProgram Oracle.firstFit 7 (cellStart 0) ()).1.outcome.state?.getD default

/-- The register of the caller that took the value has the type that the callee returns. -/
theorem cellReturned_typed_registers :
    cellReturned.stack.map (·.registers.find? 2) = [some (.num 8 6)] ∧
      ∀ f ∈ cellReturned.stack, ∃ id fn, cellReturned.callTable.find? f.callId = some id ∧
        cellProgram id = some fn ∧ ((fn.definitions cellProgram).map (·.1)).Nodup ∧
        ∀ r v, f.registers.find? r = some v →
          ∃ ty, (r, some ty) ∈ fn.definitions cellProgram ∧ v.hasType ty = true := by
  have hp : ∀ id fn, cellProgram id = some fn → ∃ b : Builder, b.Made ∧ b.build = .ok fn := by
    intro id fn hfn
    rcases id with - | - | id
    · obtain rfl := Option.some.inj hfn
      exact exists_made_caller
    · obtain rfl := Option.some.inj hfn
      exact exists_made_cell
    · cases hfn
  have hinitial : Config.initial cellProgram 0 [.num 8 5] cellConfig = .ok (cellStart 0) := rfl
  have hrun : (nstep cellProgram Oracle.firstFit 7 (cellStart 0) ()).1.outcome =
      .running cellReturned := by decide +kernel
  exact ⟨by decide +kernel, typed_registers_of_nstep hp hinitial hrun⟩

end PointerSemantics
