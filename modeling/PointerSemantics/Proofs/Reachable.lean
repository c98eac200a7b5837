import PointerSemantics.Proofs.WellFormed
import PointerSemantics.Trace

/-!
# Reachable states

A state a program starts in has the invariants, each step keeps them, and so has every state that a run
reaches, whatever the oracle answers. Where the integers in the program are valid, such a state is
well-formed and its frames own the live blocks of the stack (`check_and_owned_of_nstep`).
-/

namespace PointerSemantics

/-! ## Programs with valid integers -/

/-- An integer constant has 1 to 64 bits. -/
def Operand.hasValidInt : Operand → Bool
  | const (.int width _) => (Ty.int width).isValid
  | _ => true

/-- A load of an integer is one of 1 to 64 bits. -/
def Instruction.loadsValidInt : Instruction → Bool
  | load _ (.int bits) _ => (Ty.int bits).isValid
  | _ => true

/-- Every integer constant and every integer that is loaded has 1 to 64 bits. -/
def FunctionDef.intsValid (fn : FunctionDef) : Bool :=
  fn.operands.all Operand.hasValidInt &&
    fn.blocks.all fun b => b.instructions.all Instruction.loadsValidInt

theorem Ty.isValid_int_iff {w : Nat} : (Ty.int w).isValid = true ↔ 1 ≤ w ∧ w ≤ maxIntBits := by
  simp [isValid]

namespace FunctionDef

variable {fn : FunctionDef}

theorem hasValidInt_of_mem (h : fn.intsValid = true) {w n : Nat}
    (hmem : .const (.int w n) ∈ fn.operands) : 1 ≤ w ∧ w ≤ maxIntBits := by
  rw [intsValid, Bool.and_eq_true] at h
  exact Ty.isValid_int_iff.1 (List.all_eq_true.1 h.1 _ hmem)

theorem loadsValidInt_of_codeAt? (h : fn.intsValid = true) {pc : Pc} {i : Instruction}
    (hcode : fn.codeAt? pc = some (.instruction i)) : i.loadsValidInt = true := by
  rw [intsValid, Bool.and_eq_true] at h
  obtain ⟨b, hb, hi⟩ := codeAt?_instruction hcode
  have hall := List.all_eq_true.1 h.2 b (List.mem_of_getElem? hb)
  exact List.all_eq_true.1 hall i (List.mem_of_getElem? hi)

end FunctionDef

section Effects

variable {m : Memory} {regs : Table Value} {i : Instruction} {e : Effect}

/-- A number that an instruction binds is one of its operands, has a valid width, or was loaded. -/
theorem Instruction.Produces.num_cases {w n : Nat} (h : i.Produces m regs (.num w n)) :
    (∃ op ∈ i.operands, op.eval regs = .ok (.num w n)) ∨ (Value.num w n).NumberWf ∨
      (∃ dst ptr, i = .load dst (.int w) ptr) ∧ n < Word.modulus w := by
  have hty : ∀ ty, i.valueTy? = some ty → ty = .int w :=
    fun ty hi => Value.hasType_num.1 (h.hasType hi)
  generalize hv : Value.num w n = v at h
  cases h with
  | operand hmem hop => exact .inl ⟨_, hmem, hop⟩
  | poison | null => simp [Value.null] at hv
  | number _ hnumber => exact .inr (.inl hnumber.2)
  | move => cases hty _ rfl
  | cast hptr =>
    obtain rfl := hty _ rfl
    simp [Ty.isPtr] at hptr
  | @load _ ty _ _ _ bytes _ =>
    rcases Memory.num_of_loaded hv.symm with ⟨rfl, hn⟩
    exact .inr (.inr ⟨⟨_, _, rfl⟩, hn⟩)

theorem Instruction.Produces.numberWf {v : Value} (h : i.Produces m regs v)
    (hop : ∀ op ∈ i.operands, op.eval regs = .ok v → v.NumberWf) (hi : i.loadsValidInt = true) :
    v.NumberWf := by
  rintro w n rfl
  rcases h.num_cases with ⟨op, hmem, hv⟩ | hnumber | ⟨⟨dst, ptr, rfl⟩, hn⟩
  · exact hop op hmem hv w n rfl
  · exact hnumber w n rfl
  · exact ⟨(Ty.isValid_int_iff.1 hi).1, (Ty.isValid_int_iff.1 hi).2, hn⟩

theorem Instruction.Does.numberWf {v : Value} (h : i.Does m regs e)
    (hop : ∀ op ∈ i.operands, op.eval regs = .ok v → v.NumberWf) (hi : i.loadsValidInt = true)
    (hv : e.value = some v) : v.NumberWf := by
  rcases h.value_cases hv with ⟨h, -⟩ | ⟨req, id, -, rfl⟩
  · exact h.numberWf hop hi
  · exact nofun

end Effects

namespace Config

variable {p : Program} {c d : Config}

/-! ## All invariants together -/

/-- Every function can be entered, and its integers are valid. -/
def ProgramWf (p : Program) : Prop := ∀ id fn, p id = some fn → fn.blocks ≠ [] ∧ fn.intsValid = true

/-- What holds of every state that a program with valid integers reaches. -/
structure Regular (p : Program) (c : Config) : Prop where
  sound : c.Sound
  numbers : c.AllValues Value.NumberWf
  stack : c.stack ≠ []
  calls : c.CallsWf
  code : c.CodeWf p
  owns : c.Owns

theorem Steps.numbers (h : c.Steps p d) (hp : ProgramWf p) (hc : c.AllValues Value.NumberWf) :
    d.AllValues Value.NumberWf := by
  refine h.allValues hc (fun _ hv => hv) nofun nofun ?_ ?_
  · intro id fn hfn w n hmem
    obtain ⟨h1, h2⟩ := FunctionDef.hasValidInt_of_mem (hp id fn hfn).2 hmem
    exact Value.numberWf_ofBits h1 h2
  · intro f rest fn i e v hstack hfetch he _ hv
    obtain ⟨id, -, hfn, hcode⟩ := fetch_eq_ok_iff.1 hfetch
    have hints := (hp id fn hfn).2
    refine he.numberWf (fun op hmem hop => ?_) (FunctionDef.loadsValidInt_of_codeAt? hints hcode) hv
    rcases Operand.eval_cases hop with ⟨r, -, hr⟩ | ⟨w, n, rfl, rfl⟩ | rfl | rfl
    · exact hc.top hstack hr
    · obtain ⟨h1, h2⟩ := FunctionDef.hasValidInt_of_mem hints
        (FunctionDef.mem_operands_of_instruction hcode hmem)
      exact Value.numberWf_ofBits h1 h2
    · exact nofun
    · exact nofun

theorem Steps.stack_ne_nil (h : c.Steps p d) : d.stack ≠ [] := by
  cases h <;> exact List.cons_ne_nil _ _

theorem Steps.regular (h : c.Steps p d) (hp : ProgramWf p) (hc : c.Regular p) : d.Regular p where
  sound := h.sound hc.sound
  numbers := h.numbers hp hc.numbers
  stack := h.stack_ne_nil
  calls := h.callsWf hc.calls
  code := h.codeWf hc.calls hc.code fun id fn hfn => (hp id fn hfn).1
  owns := h.owns hc.sound.memory.wf hc.owns

theorem Regular.wellFormed (h : c.Regular p) : c.WellFormed p where
  memory := h.sound.memory.wf
  stack := h.stack
  calls := h.calls
  frames := fun f hf =>
    { lt := h.calls.lt _ (List.mem_map_of_mem hf)
      code := h.code f hf
      registers := fun r v hv =>
        Memory.valueWf_iff.2 ⟨h.sound.values f hf r v hv, h.numbers f hf r v hv⟩
      blocks := fun id hid => h.owns.live id (List.mem_flatMap.2 ⟨f, hf, hid⟩) }
  stored := h.sound.memory.stored

/-! ## Starting -/

/-- A program starts with one frame, at the entry of its function, on an empty memory, with arguments of
the types of the parameters. -/
theorem initial_eq_ok {entry : FunctionId} {args : List Value} {config : MemConfig}
    (h : initial p entry args config = .ok c) : config.validate = .ok () ∧
      ∃ fn, p entry = some fn ∧
        (∀ r ty v, ((r, ty), v) ∈ fn.params.zip args → v.hasType ty = true) ∧
        c = { memory := .empty config
              stack := [⟨0, .entry, .ofList ((fn.params.map (·.1)).zip args), none, []⟩]
              callTable := Table.empty.insert 0 entry
              nextCallId := 1 } := by
  unfold initial Memory.new at h
  cases hvalid : config.validate with
  | error e =>
    rw [hvalid] at h
    simp [bind, Except.bind] at h
  | ok u =>
    rw [hvalid] at h
    simp only [bind, Except.bind, pure, Except.pure, withMemory] at h
    refine ⟨rfl, ?_⟩
    split at h
    · simp at h
    · next fn hfn =>
      split at h
      · simp at h
      · split at h
        · simp at h
        · next hfind =>
          refine ⟨fn, hfn, fun r ty v hmem => ?_, (Except.ok.inj h).symm⟩
          simpa using List.find?_eq_none.1 hfind _ hmem

section Initial

variable {entry : FunctionId} {args : List Value} {config : MemConfig}

/-- What holds of every argument holds of every value in a register at the start. -/
theorem allValues_initial {P : Value → Prop} (h : initial p entry args config = .ok c)
    (hargs : ∀ v ∈ args, P v) : c.AllValues P := by
  obtain ⟨-, fn, -, -, rfl⟩ := initial_eq_ok h
  intro f hf r v hv
  obtain rfl := List.mem_singleton.1 hf
  exact hargs v (List.of_mem_zip (Table.find?_ofList hv)).2

theorem sound_initial (h : initial p entry args config = .ok c)
    (hargs : ∀ v ∈ args, (Memory.empty config).PointsWell v) : c.Sound := by
  obtain ⟨hvalid, fn, -, -, hc⟩ := initial_eq_ok h
  have hmemory : c.memory = .empty config := by rw [hc]
  refine ⟨hmemory ▸ Memory.sound_empty hvalid, allValues_initial h fun v hv => ?_⟩
  rw [hmemory]
  exact hargs v hv

theorem callsWf_initial (h : initial p entry args config = .ok c) : c.CallsWf := by
  obtain ⟨-, fn, -, -, rfl⟩ := initial_eq_ok h
  refine ⟨List.nodup_singleton _, fun k hk => ?_, fun k => ?_⟩
  · obtain rfl := List.mem_singleton.1 hk
    exact Nat.zero_lt_one
  · show k ∈ [0] ↔ _
    rw [List.mem_singleton, Table.find?_insert, Table.find?_empty]
    by_cases hk : k = 0
    · simp [hk]
    · simp [hk]

theorem stack_initial (h : initial p entry args config = .ok c) : c.stack ≠ [] := by
  obtain ⟨-, fn, -, -, rfl⟩ := initial_eq_ok h
  exact List.cons_ne_nil _ _

theorem codeWf_initial (h : initial p entry args config = .ok c)
    (hblocks : ∀ id fn, p id = some fn → fn.blocks ≠ []) : c.CodeWf p := by
  obtain ⟨-, fn, hfn, -, rfl⟩ := initial_eq_ok h
  intro f hf
  obtain rfl := List.mem_singleton.1 hf
  obtain ⟨b, bs, hb⟩ := List.exists_cons_of_ne_nil (hblocks entry fn hfn)
  exact ⟨entry, fn, rfl, hfn, FunctionDef.isValidPc_start (b := b) (by rw [hb]; rfl)⟩

theorem owned_initial (h : initial p entry args config = .ok c) : c.Owned := by
  obtain ⟨-, fn, -, -, rfl⟩ := initial_eq_ok h
  refine ⟨⟨List.nodup_nil, fun id hid => absurd hid List.not_mem_nil⟩, ?_⟩
  rintro id ⟨b, hb, -⟩
  simp [Memory.get?, Memory.empty] at hb

theorem regular_initial (h : initial p entry args config = .ok c) (hp : ProgramWf p)
    (hargs : ∀ v ∈ args, (Memory.empty config).valueWf v = true) : c.Regular p where
  sound := sound_initial h fun v hv => (Memory.valueWf_iff.1 (hargs v hv)).1
  numbers := allValues_initial h fun v hv => (Memory.valueWf_iff.1 (hargs v hv)).2
  stack := stack_initial h
  calls := callsWf_initial h
  code := codeWf_initial h fun id fn hfn => (hp id fn hfn).1
  owns := (owned_initial h).toOwns

end Initial

end Config

/-! ## Runs -/

/-- The state that an execution stopped in and can go on from. -/
def Outcome.state? : Outcome → Option Config
  | running c => some c
  | halted _ | timeout => none

theorem Outcome.state?_eq_some_iff {o : Outcome} {c : Config} : o.state? = some c ↔ o = .running c := by
  cases o <;> simp [state?]

section Run

variable {σ : Type} {p : Program} {o : Oracle σ} {c d : Config} {s : σ} {n : Nat}

/-- A property of states that every step keeps holds of the state that a run reaches. -/
theorem nstep_invariant {I : Config → Prop} (hstep : ∀ c d, I c → c.Steps p d → I d)
    (hc : I c) (h : (nstep p o n c s).1.outcome = .running d) : I d := by
  induction n generalizing c s with
  | zero =>
    obtain rfl := Outcome.running.inj h
    exact hc
  | succ n ih =>
    have hyields := Ask.yields_resolve o s (c.step p)
    unfold nstep at h
    split at h
    · simp at h
    · next next s' heq =>
      rw [heq] at hyields
      exact ih (hstep c next hc (Config.steps_of_yields hyields)) h

/-- In every state that a run reaches, dead blocks lie in the address space as live ones do. -/
theorem confined_of_nstep {entry : FunctionId} {args : List Value} {config : MemConfig}
    (hinitial : Config.initial p entry args config = .ok c)
    (h : (nstep p o n c s).1.outcome = .running d) : d.memory.Confined := by
  refine nstep_invariant (I := fun c => c.memory.Confined) (fun c d hc hcd => hcd.confined hc) ?_ h
  obtain ⟨hvalid, fn, -, -, rfl⟩ := Config.initial_eq_ok hinitial
  exact Memory.confined_empty hvalid

/-- Every state that a run reaches passes the check, and the blocks that its frames will release are the
live blocks of the stack, each of them once. -/
theorem check_and_owned_of_nstep {entry : FunctionId} {args : List Value} {config : MemConfig}
    (hp : ∀ id fn, p id = some fn → fn.blocks ≠ [] ∧ fn.intsValid = true)
    (hargs : ∀ v ∈ args, (Memory.empty config).valueWf v = true)
    (hinitial : Config.initial p entry args config = .ok c)
    (h : (nstep p o n c s).1.outcome = .running d) :
    d.check p = .ok () ∧ (d.stack.flatMap (·.stackBlocks)).Nodup ∧
      ∀ id, id ∈ d.stack.flatMap (·.stackBlocks) ↔
        ∃ b, d.memory.get? id = some b ∧ b.kind = .stack ∧ b.isAlive = true := by
  have hd : d.Regular p ∧ d.Owned := by
    refine nstep_invariant (I := fun c => c.Regular p ∧ c.Owned) ?_ ?_ h
    · exact fun c d hc hcd => ⟨hcd.regular hp hc.1, hcd.owned hc.1.sound.memory.wf hc.2⟩
    · exact ⟨Config.regular_initial hinitial hp hargs, Config.owned_initial hinitial⟩
  exact ⟨Config.check_eq_ok_iff.2 hd.1.wellFormed, hd.2.nodup, hd.2.mem_iff⟩

end Run

/-! ## A small program -/

/-- Puts one more than its argument into a cell of the stack and returns what the cell holds. -/
def cellFunction : FunctionDef where
  name := "cell"
  params := [(0, .int 8)]
  retTy := .int 8
  blocks :=
    [{ label := "entry"
       phis := []
       instructions :=
        [.alloca 1 (.int 8) (.const (.int 8 1)),
          .binOp 2 .add (.int 8) (.reg 0) (.const (.int 8 1)),
          .store (.int 8) (.reg 2) (.reg 1),
          .load 3 (.int 8) (.reg 1)]
       terminator := .ret (.reg 3) }]

/-- Calls the other function while it owns a cell itself. -/
def callerFunction : FunctionDef where
  name := "caller"
  params := [(0, .int 8)]
  retTy := .int 8
  blocks :=
    [{ label := "entry"
       phis := []
       instructions := [.alloca 1 (.int 8) (.const (.int 8 1)), .call (some 2) 1 [.reg 0]]
       terminator := .ret (.reg 2) }]

def cellProgram : Program
  | 0 => some callerFunction
  | 1 => some cellFunction
  | _ => none

def cellConfig : MemConfig := ⟨64, 8, 2⟩

/-- The state in which a function of the program starts with the argument five. -/
def cellStart (entry : FunctionId) : Config :=
  match Config.initial cellProgram entry [.num 8 5] cellConfig with
  | .ok c => c
  | .error _ => default

/-- Inside the inner call, with a cell in each frame. -/
theorem cell_check_and_owned :
    ∃ d, (nstep cellProgram Oracle.firstFit 4 (cellStart 0) ()).1.outcome = .running d ∧
      d.check cellProgram = .ok () ∧ (d.stack.flatMap (·.stackBlocks)).Nodup ∧
        ∀ id, id ∈ d.stack.flatMap (·.stackBlocks) ↔
          ∃ b, d.memory.get? id = some b ∧ b.kind = .stack ∧ b.isAlive = true := by
  have hkind : (nstep cellProgram Oracle.firstFit 4 (cellStart 0) ()).1.outcome.kind = "running" :=
    by decide +kernel
  have hp : ∀ id fn, cellProgram id = some fn → fn.blocks ≠ [] ∧ fn.intsValid = true := by
    intro id fn hfn
    match id with
    | 0 => obtain rfl := Option.some.inj hfn; decide
    | 1 => obtain rfl := Option.some.inj hfn; decide
    | _ + 2 => simp [cellProgram] at hfn
  have hargs : ∀ v ∈ [Value.num 8 5], (Memory.empty cellConfig).valueWf v = true := by decide
  have hinitial : Config.initial cellProgram 0 [.num 8 5] cellConfig = .ok (cellStart 0) := rfl
  cases h : (nstep cellProgram Oracle.firstFit 4 (cellStart 0) ()).1.outcome with
  | running d => exact ⟨d, rfl, check_and_owned_of_nstep hp hargs hinitial h⟩
  | halted e => rw [h] at hkind; cases e <;> simp [Outcome.kind] at hkind
  | timeout => rw [h] at hkind; simp [Outcome.kind] at hkind

end PointerSemantics
