import Mathlib.Data.List.Basic
import PointerSemantics.Proofs.Steps
import PointerSemantics.Swap

/-!
# The program with a pair exchanged

Exchanging two neighbours changes the code of a function at their two places and nothing else: labels,
phis and terminators stay. So a state whose innermost frame is at neither place makes the same step in
both programs (`Config.step_overlay`).
-/

namespace PointerSemantics

/-- The block without its instructions. -/
def BasicBlock.outline (b : BasicBlock) : BasicBlock := { b with instructions := [] }

/-- The function without its instructions. -/
def FunctionDef.outline (fn : FunctionDef) : FunctionDef :=
  { fn with blocks := fn.blocks.map BasicBlock.outline }

namespace FunctionDef

variable {fn fn' : FunctionDef} {pc : Pc} {i j : Instruction}

theorem codeAt?_of_instructionAt? (h : fn.instructionAt? pc = some i) :
    fn.codeAt? pc = some (.instruction i) := by
  obtain ⟨b, hb, hi⟩ := Option.bind_eq_some_iff.1 h
  unfold codeAt?
  rw [hb, Option.bind_some, hi]

theorem swapAt?_eq_some (h : fn.swapAt? pc = some fn') (hi : fn.instructionAt? pc = some i)
    (hj : fn.instructionAt? pc.next = some j) : ∃ b, fn.blocks[pc.block]? = some b ∧
      b.instructions[pc.inst]? = some i ∧ b.instructions[pc.inst + 1]? = some j ∧
      fn' = { fn with
        blocks := fn.blocks.set pc.block
          { b with instructions := (b.instructions.set pc.inst j).set (pc.inst + 1) i } } := by
  obtain ⟨b, hb, hbi⟩ := Option.bind_eq_some_iff.1 hi
  obtain ⟨b', hb', hbj⟩ := Option.bind_eq_some_iff.1 hj
  obtain rfl := Option.some.inj (hb.symm.trans hb')
  have hnext : b.instructions[pc.inst + 1]? = some j := hbj
  refine ⟨b, hb, hbi, hnext, ?_⟩
  unfold swapAt? at h
  simp only [hb, hbi, hnext, Option.bind_eq_bind, Option.bind_some] at h
  exact (Option.some.inj h).symm

/-- Two neighbours can be exchanged. -/
theorem exists_swapAt? (hi : fn.instructionAt? pc = some i) (hj : fn.instructionAt? pc.next = some j) :
    ∃ fn', fn.swapAt? pc = some fn' := by
  obtain ⟨b, hb, hbi⟩ := Option.bind_eq_some_iff.1 hi
  obtain ⟨b', hb', hbj⟩ := Option.bind_eq_some_iff.1 hj
  obtain rfl := Option.some.inj (hb.symm.trans hb')
  have hnext : b.instructions[pc.inst + 1]? = some j := hbj
  unfold swapAt?
  simp only [hb, hbi, hnext, Option.bind_eq_bind, Option.bind_some]
  exact ⟨_, rfl⟩

section Swapped

variable (h : fn.swapAt? pc = some fn') (hi : fn.instructionAt? pc = some i)
  (hj : fn.instructionAt? pc.next = some j)

include h hi hj

theorem instructionAt?_swapAt? : fn'.instructionAt? pc = some j := by
  obtain ⟨b, hb, hbi, hbj, rfl⟩ := swapAt?_eq_some h hi hj
  have hblock := (List.getElem?_eq_some_iff.1 hb).1
  have hinst := (List.getElem?_eq_some_iff.1 hbi).1
  unfold instructionAt?
  simp only [List.getElem?_set_self hblock, Option.bind_some]
  rw [List.getElem?_set_ne (by omega), List.getElem?_set_self hinst]

theorem instructionAt?_swapAt?_next : fn'.instructionAt? pc.next = some i := by
  obtain ⟨b, hb, hbi, hbj, rfl⟩ := swapAt?_eq_some h hi hj
  have hblock := (List.getElem?_eq_some_iff.1 hb).1
  have hinst := (List.getElem?_eq_some_iff.1 hbj).1
  unfold instructionAt? Pc.next
  simp only [List.getElem?_set_self hblock, Option.bind_some]
  rw [List.getElem?_set_self (by rwa [List.length_set])]

/-- The code elsewhere is as it was. -/
theorem codeAt?_swapAt? {q : Pc} (hq : q ≠ pc) (hq' : q ≠ pc.next) :
    fn'.codeAt? q = fn.codeAt? q := by
  obtain ⟨b, hb, hbi, hbj, rfl⟩ := swapAt?_eq_some h hi hj
  have hblock := (List.getElem?_eq_some_iff.1 hb).1
  unfold codeAt?
  by_cases hqb : pc.block = q.block
  · have hne : pc.inst ≠ q.inst := by
      intro hinst
      exact hq (by cases q; cases pc; simp_all)
    have hne' : pc.inst + 1 ≠ q.inst := by
      intro hinst
      exact hq' (by cases q; cases pc; simp_all [Pc.next])
    rw [← hqb, hb, List.getElem?_set_self hblock, Option.bind_some, Option.bind_some]
    dsimp only
    rw [List.getElem?_set_ne hne', List.getElem?_set_ne hne, List.length_set, List.length_set]
  · rw [List.getElem?_set_ne hqb]

theorem outline_swapAt? : fn'.outline = fn.outline := by
  obtain ⟨b, hb, -, -, rfl⟩ := swapAt?_eq_some h hi hj
  unfold outline
  congr 1
  refine List.ext_getElem? fun k => ?_
  rw [List.map_set, List.getElem?_set]
  split
  · next hk =>
    subst hk
    rw [List.getElem?_map, hb, List.length_map, if_pos (List.getElem?_eq_some_iff.1 hb).1]
    rfl
  · rfl

theorem params_swapAt? : fn'.params = fn.params := by
  show fn'.outline.params = fn.outline.params
  rw [outline_swapAt? h hi hj]

end Swapped

end FunctionDef

/-! ## Steps elsewhere -/

/-- A jump looks at no instruction. -/
theorem Frame.jump_outline (f : Frame) (fn : FunctionDef) (label : String) :
    f.jump fn.outline label = f.jump fn label := by
  have hindex : fn.outline.blockIndex? label = fn.blockIndex? label := by
    unfold FunctionDef.blockIndex? FunctionDef.outline
    rw [List.findIdx?_map]
    rfl
  have hblock : ∀ k : Nat, fn.outline.blocks[k]? = fn.blocks[k]?.map BasicBlock.outline :=
    fun k => List.getElem?_map ..
  unfold jump
  rw [hindex]
  cases fn.blockIndex? label with
  | none => rfl
  | some index =>
    dsimp only
    rw [hblock, hblock]
    cases fn.blocks[f.pc.block]? with
    | none => rfl
    | some source => cases fn.blocks[index]? <;> rfl

namespace Config

variable {p : Program} {c : Config} {id : FunctionId} {fn fn' : FunctionDef} {pc : Pc}
  {i j : Instruction}

theorem terminate_outline (f : Frame) (rest : List Frame) (fn : FunctionDef) (t : Terminator) :
    c.terminate f rest fn.outline t = c.terminate f rest fn t := by
  cases t with
  | br label => simp only [terminate, f.jump_outline]
  | condBr cond onTrue onFalse => simp only [terminate, f.jump_outline]
  | ret val => rfl
  | unreachable => rfl

theorem call_overlay (hfn : p id = some fn) (hparams : fn'.params = fn.params) (f : Frame)
    (rest : List Frame) (dst : Option Reg) (callee : FunctionId) (args : List Operand) :
    c.call (p.overlay id fn') f rest dst callee args = c.call p f rest dst callee args := by
  unfold call Program.overlay
  by_cases hcallee : callee = id
  · rw [if_pos hcallee, hcallee, hfn]
    show (if _ then _ else _) = if _ then _ else _
    rw [hparams]
  · rw [if_neg hcallee]

/-- A state whose innermost frame is not at the exchanged pair makes the same step in both programs. -/
theorem step_overlay (hfn : p id = some fn) (h : fn.swapAt? pc = some fn')
    (hi : fn.instructionAt? pc = some i) (hj : fn.instructionAt? pc.next = some j)
    (hoff : ∀ f rest, c.stack = f :: rest → c.callTable.find? f.callId = some id →
      f.pc ≠ pc ∧ f.pc ≠ pc.next) : c.step (p.overlay id fn') = c.step p := by
  have hcall : ∀ f rest dst callee args, c.call (p.overlay id fn') f rest dst callee args =
      c.call p f rest dst callee args :=
    call_overlay hfn (FunctionDef.params_swapAt? h hi hj)
  unfold step
  cases hstack : c.stack with
  | nil => rfl
  | cons f rest =>
    dsimp only
    simp only [hcall]
    unfold fetch
    cases hid : c.callTable.find? f.callId with
    | none => rfl
    | some g =>
      by_cases hg : g = id
      · subst hg
        obtain ⟨hpc, hnext⟩ := hoff f rest hstack hid
        have hover : p.overlay g fn' g = some fn' := if_pos rfl
        have hcode := FunctionDef.codeAt?_swapAt? h hi hj hpc hnext
        simp only [Exec.orStuck, Exec.ok_bind, hover, hfn, hcode]
        cases fn.codeAt? f.pc with
        | none => rfl
        | some code =>
          cases code with
          | instruction i => cases i <;> rfl
          | terminator t =>
            refine congrArg Ask.done ?_
            rw [← terminate_outline, FunctionDef.outline_swapAt? h hi hj, terminate_outline]
      · have hover : p.overlay id fn' g = p g := if_neg hg
        simp only [Exec.orStuck, Exec.ok_bind, hover]

/-- In the program with the pair exchanged the pair is there the other way round. -/
theorem fetch_overlay (h : fn.swapAt? pc = some fn')
    (hi : fn.instructionAt? pc = some i) (hj : fn.instructionAt? pc.next = some j) {f : Frame}
    (hid : c.callTable.find? f.callId = some id) :
    (f.pc = pc → c.fetch (p.overlay id fn') f = .ok (fn', .instruction j)) ∧
      (f.pc = pc.next → c.fetch (p.overlay id fn') f = .ok (fn', .instruction i)) := by
  have hover : p.overlay id fn' id = some fn' := if_pos rfl
  constructor
  · rintro rfl
    exact fetch_eq_ok_iff.2 ⟨id, hid, hover,
      FunctionDef.codeAt?_of_instructionAt? (FunctionDef.instructionAt?_swapAt? h hi hj)⟩
  · intro hpc
    rw [fetch_eq_ok_iff, hpc]
    exact ⟨id, hid, hover,
      FunctionDef.codeAt?_of_instructionAt? (FunctionDef.instructionAt?_swapAt?_next h hi hj)⟩

end Config

end PointerSemantics
