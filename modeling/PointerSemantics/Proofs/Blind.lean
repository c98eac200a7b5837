import PointerSemantics.Proofs.Erasure
import PointerSemantics.Proofs.Reachable

/-!
# Programs blind to addresses

A blind program does not turn pointers into numbers or back, moves them inside their blocks only, and
loads integers only. Started without bare addresses it never has one in a register
(`Steps.noAddress`), so where its blocks lie is hidden from every instruction it comes to
(`Blind.hides`).
-/

namespace PointerSemantics

/-! ## Values -/

/-- An integer is no pointer. -/
theorem Value.isAddress_of_hasType_int {v : Value} {w : Nat} (h : v.hasType (.int w) = true) :
    v.isAddress = false := by
  cases v with
  | ptr p => simp [Ty.isPtr] at h
  | num | poison => rfl

section Values

variable {m : Memory} {regs : Table Value} {i : Instruction} {e : Effect} {v : Value}

/-- A move inside the bounds of a block does not make an address of a pointer. -/
theorem Memory.isAddress_movePointer {p : Pointer} (hp : p.isPhysical = false) (delta : Int) :
    (m.movePointer p delta true).isAddress = false := by
  unfold movePointer
  cases p with
  | null =>
    dsimp only
    split <;> rfl
  | logical id offset =>
    dsimp only
    cases m.get? id with
    | none => rfl
    | some b =>
      dsimp only
      split
      · rfl
      · split <;> rfl
  | physical addr visited owner => simp [Pointer.isPhysical] at hp

/-- The value that a blind instruction binds is no address if there is none in the registers. -/
theorem Instruction.Produces.noAddress (h : i.Produces m regs v) (hi : i.isBlind = true)
    (hregs : NoAddress regs) : v.isAddress = false := by
  cases h with
  | operand _ hv => exact hregs.eval hv
  | poison => rfl
  | null => rfl
  | number _ hv =>
    obtain ⟨⟨n, rfl⟩, -⟩ := hv
    rfl
  | @move _ inbounds _ _ _ p hp delta =>
    have hinbounds : inbounds = true := hi
    subst hinbounds
    exact Memory.isAddress_movePointer (hregs.eval hp) delta
  | cast => simp [isBlind] at hi
  | @load _ ty _ _ _ bytes _ =>
    cases ty with
    | int w => exact Value.isAddress_of_hasType_int (Memory.hasType_loaded bytes _)
    | ptr t => simp [isBlind, Ty.isInt] at hi

theorem Instruction.Does.noAddress (h : i.Does m regs e) (hi : i.isBlind = true)
    (hregs : NoAddress regs) (hv : e.value = some v) : v.isAddress = false := by
  rcases h.value_cases hv with ⟨h, -⟩ | ⟨req, id, -, rfl⟩
  · exact h.noAddress hi hregs
  · rfl

end Values

/-! ## Programs -/

/-- Every instruction is blind to addresses. -/
def FunctionDef.isBlind (fn : FunctionDef) : Bool :=
  fn.blocks.all fun b => b.instructions.all Instruction.isBlind

theorem FunctionDef.isBlind_of_codeAt? {fn : FunctionDef} (h : fn.isBlind = true) {pc : Pc}
    {i : Instruction} (hcode : fn.codeAt? pc = some (.instruction i)) : i.isBlind = true := by
  obtain ⟨b, hb, hi⟩ := codeAt?_instruction hcode
  have hall := List.all_eq_true.1 h b (List.mem_of_getElem? hb)
  exact List.all_eq_true.1 hall i (List.mem_of_getElem? hi)

namespace Config

variable {p : Program} {c d : Config}

/-- Every function of the program is blind to addresses. -/
def ProgramBlind (p : Program) : Prop := ∀ id fn, p id = some fn → fn.isBlind = true

theorem isBlind_of_fetch (hp : ProgramBlind p) {f : Frame} {fn : FunctionDef} {i : Instruction}
    (h : c.fetch p f = .ok (fn, .instruction i)) : i.isBlind = true := by
  obtain ⟨id, -, hfn, hcode⟩ := fetch_eq_ok_iff.1 h
  exact FunctionDef.isBlind_of_codeAt? (hp id fn hfn) hcode

/-- What holds of every state that a blind program reaches. -/
structure Blind (c : Config) : Prop where
  sound : c.Sound
  noAddress : c.AllValues fun v => v.isAddress = false

theorem Blind.registers (h : c.Blind) {f : Frame} {rest : List Frame} (hstack : c.stack = f :: rest) :
    NoAddress f.registers := fun _ _ hv => h.noAddress.top hstack hv

theorem Steps.blind (h : c.Steps p d) (hp : ProgramBlind p) (hc : c.Blind) : d.Blind := by
  refine ⟨h.sound hc.sound, ?_⟩
  refine h.allValues hc.noAddress (fun _ hv => hv) rfl rfl (fun _ _ _ _ _ _ => rfl) ?_
  intro f rest fn i e v hstack hfetch he _ hv
  exact he.noAddress (isBlind_of_fetch hp hfetch) (hc.registers hstack) hv

/-- In a state of a blind program it does not matter where blocks lie. -/
theorem Blind.hides (h : c.Blind) (hp : ProgramBlind p) (e : Erasure) : c.Hides p e := by
  intro f rest fn i hstack hfetch
  exact .inr ⟨isBlind_of_fetch hp hfetch, h.registers hstack⟩

/-- Arguments without pointers other than null bring in no address. -/
theorem blind_initial {entry : FunctionId} {args : List Value} {config : MemConfig}
    (h : initial p entry args config = .ok c) (hargs : ∀ q, .ptr q ∈ args → q = .null) :
    c.Blind := by
  have hptr : ∀ v ∈ args, ∀ q, v = .ptr q → q = .null := by
    intro v hv q hq
    exact hargs q (hq ▸ hv)
  refine ⟨sound_initial h fun v hv q hq => ?_, allValues_initial h fun v hv => ?_⟩
  · rw [hptr v hv q hq]
    rfl
  · cases v with
    | num w n => rfl
    | poison => rfl
    | ptr q =>
      rw [hptr _ hv q rfl]
      rfl

end Config

end PointerSemantics
