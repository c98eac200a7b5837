import PointerSemantics.Builder
import PointerSemantics.Proofs.Exec

/-!
# What building checks

Building finishes the blocks as they are and refuses everything else it finds wrong: it gives a function
exactly if there is an entry block, the labels differ, terminators name blocks of the function, phis have
valid types, and no register of a block is defined before (`Builder.build_eq_ok_iff`). In particular the
function is closed (`Builder.closed_of_build`), so nothing in it jumps to nowhere.
-/

namespace PointerSemantics

/-- The function has an entry, and its terminators name its own blocks only. -/
structure FunctionDef.Closed (fn : FunctionDef) : Prop where
  entry : fn.blocks ≠ []
  labels : ∀ b ∈ fn.blocks, ∀ l ∈ b.terminator.successors, l ∈ fn.blocks.map (·.label)

/-- The registers defined in a block. -/
def BasicBlock.registers (b : BasicBlock) : List Reg :=
  b.phis.map (·.dst) ++ b.instructions.filterMap Instruction.def?

/-- The block before it is finished. -/
def BasicBlock.opened (b : BasicBlock) : OpenBlock :=
  ⟨b.label, b.phis, b.instructions, some b.terminator⟩

namespace FunctionDef

variable {fn : FunctionDef}

/-- A label of a block leads to a block. -/
theorem exists_blockIndex? {label : String} (h : label ∈ fn.blocks.map (·.label)) :
    ∃ index target, fn.blockIndex? label = some index ∧ fn.blocks[index]? = some target := by
  obtain ⟨b, hb, rfl⟩ := List.mem_map.1 h
  cases hindex : fn.blockIndex? b.label with
  | none => exact absurd (List.findIdx?_eq_none_iff.1 hindex b hb) (by simp)
  | some index =>
    obtain ⟨hlt, -⟩ := List.findIdx?_eq_some_iff_getElem.1 hindex
    exact ⟨index, _, rfl, List.getElem?_eq_getElem hlt⟩

end FunctionDef

namespace Builder

variable {labels : List String} {defined defined' : List Reg}

/-! ## Labels and definitions -/

/-- Differing from each other and from what was seen, one element further. -/
theorem nodup_and_new_cons_iff {α : Type} {a : α} {as seen : List α} (ha : a ∉ seen) :
    ((a :: as).Nodup ∧ ∀ x ∈ a :: as, x ∉ seen) ↔ as.Nodup ∧ ∀ x ∈ as, x ∉ a :: seen := by
  constructor
  · rintro ⟨hnodup, hnew⟩
    obtain ⟨hfirst, hnodup⟩ := List.nodup_cons.1 hnodup
    refine ⟨hnodup, ?_⟩
    intro x hx hmem
    obtain rfl | hseen := List.mem_cons.1 hmem
    · exact hfirst hx
    · exact hnew x (List.mem_cons_of_mem _ hx) hseen
  · rintro ⟨hnodup, hnew⟩
    refine ⟨List.nodup_cons.2 ⟨fun hmem => hnew a hmem List.mem_cons_self, hnodup⟩, ?_⟩
    exact List.forall_mem_cons.2 ⟨ha, fun x hx hmem => hnew x hx (List.mem_cons_of_mem _ hmem)⟩

theorem repeatedLabel?_eq_none_iff {seen ls : List String} :
    repeatedLabel? seen ls = none ↔ ls.Nodup ∧ ∀ l ∈ ls, l ∉ seen := by
  induction ls generalizing seen with
  | nil => simp [repeatedLabel?]
  | cons l rest ih =>
    by_cases hl : l ∈ seen
    · simp [repeatedLabel?, hl]
    · rw [nodup_and_new_cons_iff hl, ← ih]
      simp [repeatedLabel?, hl]

/-- Registers can be defined exactly if they differ from each other and from those defined before. -/
theorem exists_define_iff {rs : List Reg} :
    (∃ defined', define defined rs = .ok defined') ↔ rs.Nodup ∧ ∀ r ∈ rs, r ∉ defined := by
  induction rs generalizing defined with
  | nil => simp [define]
  | cons r rest ih =>
    by_cases hr : r ∈ defined
    · simp [define, hr]
    · rw [nodup_and_new_cons_iff hr, ← ih]
      simp [define, hr]

theorem define_append (defined : List Reg) (rs rs' : List Reg) :
    define defined (rs ++ rs') = define defined rs >>= fun defined => define defined rs' := by
  induction rs generalizing defined with
  | nil => rfl
  | cons r rest ih =>
    rw [List.cons_append, define, define]
    split
    · rfl
    · exact ih _

theorem definePhis_eq_ok_iff {phis : List Phi} : definePhis defined phis = .ok defined' ↔
    (∀ phi ∈ phis, phi.ty.isValid = true) ∧ define defined (phis.map (·.dst)) = .ok defined' := by
  induction phis generalizing defined with
  | nil => simp [definePhis, define]
  | cons phi rest ih =>
    rw [List.map_cons, List.forall_mem_cons]
    unfold definePhis define
    cases hty : phi.ty.isValid with
    | false => simp
    | true =>
      simp only [Bool.not_true, Bool.false_eq_true, if_false, true_and]
      split
      · simp
      · exact ih

/-! ## Blocks -/

/-- A block is finished exactly if it has a terminator, whose labels are known, its phis have valid types,
and its registers can be defined. -/
theorem finishBlock_eq_ok_iff {o : OpenBlock} {b : BasicBlock} :
    finishBlock labels defined o = .ok (b, defined') ↔
      o = b.opened ∧ (∀ l ∈ b.terminator.successors, l ∈ labels) ∧
        (∀ phi ∈ b.phis, phi.ty.isValid = true) ∧ define defined b.registers = .ok defined' := by
  unfold BasicBlock.registers
  rw [define_append, Exec.bind_eq_ok_iff]
  constructor
  · intro h
    unfold finishBlock at h
    split at h
    · cases h
    · next terminator hterminator =>
      split at h
      · cases h
      · next hfind =>
        obtain ⟨regs, hphis, h⟩ := Exec.bind_eq_ok_iff.1 h
        obtain ⟨regs', hinstructions, h⟩ := Exec.bind_eq_ok_iff.1 h
        obtain ⟨rfl, rfl⟩ := Prod.mk.inj (Except.ok.inj h)
        obtain ⟨hvalid, hdefine⟩ := definePhis_eq_ok_iff.1 hphis
        refine ⟨?_, ?_, hvalid, regs, hdefine, hinstructions⟩
        · obtain ⟨label, phis, instructions, _⟩ := o
          obtain rfl := hterminator
          rfl
        · intro l hl
          simpa using List.find?_eq_none.1 hfind l hl
  · rintro ⟨rfl, hlabels, hvalid, regs, hdefine, hinstructions⟩
    have hfind : (b.terminator.successors.find? fun l => !labels.contains l) = none :=
      List.find?_eq_none.2 fun l hl => by simpa using hlabels l hl
    have hphis := definePhis_eq_ok_iff.2 ⟨hvalid, hdefine⟩
    simp only [finishBlock, BasicBlock.opened, hfind]
    exact Exec.bind_eq_ok_iff.2 ⟨regs, hphis, Exec.bind_eq_ok_iff.2 ⟨defined', hinstructions, rfl⟩⟩

theorem finishBlocks_eq_ok_iff {os : List OpenBlock} {bs : List BasicBlock} :
    finishBlocks labels defined os = .ok bs ↔
      os = bs.map BasicBlock.opened ∧
        (∀ b ∈ bs, (∀ l ∈ b.terminator.successors, l ∈ labels) ∧ ∀ phi ∈ b.phis, phi.ty.isValid = true) ∧
        ∃ defined', define defined (bs.flatMap (·.registers)) = .ok defined' := by
  induction os generalizing defined bs with
  | nil =>
    constructor
    · intro h
      obtain rfl := Except.ok.inj h
      exact ⟨rfl, nofun, defined, rfl⟩
    · rintro ⟨hos, -, -⟩
      rw [List.map_eq_nil_iff.1 hos.symm]
      rfl
  | cons o os ih =>
    constructor
    · intro h
      obtain ⟨⟨b, next⟩, hblock, h⟩ := Exec.bind_eq_ok_iff.1 h
      obtain ⟨rest, hrest, h⟩ := Exec.bind_eq_ok_iff.1 h
      obtain rfl := Except.ok.inj h
      obtain ⟨rfl, hlabels, hvalid, hdefine⟩ := finishBlock_eq_ok_iff.1 hblock
      obtain ⟨rfl, hall, defined', hdefined'⟩ := ih.1 hrest
      refine ⟨rfl, List.forall_mem_cons.2 ⟨⟨hlabels, hvalid⟩, hall⟩, defined', ?_⟩
      rw [List.flatMap_cons, define_append, hdefine]
      exact hdefined'
    · rintro ⟨hos, hall, defined', hdefined'⟩
      obtain ⟨b, rest, rfl, rfl, rfl⟩ := List.map_eq_cons_iff.1 hos.symm
      rw [List.flatMap_cons, define_append] at hdefined'
      obtain ⟨next, hdefine, hrest⟩ := Exec.bind_eq_ok_iff.1 hdefined'
      obtain ⟨⟨hlabels, hvalid⟩, hall⟩ := List.forall_mem_cons.1 hall
      have hblock := finishBlock_eq_ok_iff.2 ⟨rfl, hlabels, hvalid, hdefine⟩
      have hblocks := ih.2 ⟨rfl, hall, defined', hrest⟩
      exact Exec.bind_eq_ok_iff.2 ⟨_, hblock, Exec.bind_eq_ok_iff.2 ⟨_, hblocks, rfl⟩⟩

/-! ## Functions -/

theorem build_eq_ok_iff_finishBlocks {b : Builder} {fn : FunctionDef} : b.build = .ok fn ↔
    (b.name = fn.name ∧ b.params = fn.params ∧ b.retTy = fn.retTy) ∧ b.blocks.reverse ≠ [] ∧
      (b.blocks.reverse.map (·.label)).Nodup ∧
      finishBlocks (b.blocks.reverse.map (·.label)) (b.params.map (·.1)) b.blocks.reverse = .ok fn.blocks := by
  have hnodup : repeatedLabel? [] (b.blocks.reverse.map (·.label)) = none ↔
      (b.blocks.reverse.map (·.label)).Nodup :=
    repeatedLabel?_eq_none_iff.trans (and_iff_left fun _ _ => List.not_mem_nil)
  rw [← hnodup]
  constructor
  · intro h
    unfold build at h
    dsimp only at h
    split at h
    · cases h
    · next hblocks =>
      split at h
      · cases h
      · next hrepeated =>
        cases hfinish : finishBlocks (b.blocks.reverse.map (·.label)) (b.params.map (·.1))
            b.blocks.reverse with
        | error e =>
          rw [hfinish] at h
          cases h
        | ok blocks =>
          rw [hfinish] at h
          obtain rfl := Except.ok.inj h
          exact ⟨⟨rfl, rfl, rfl⟩, fun hnil => hblocks (List.isEmpty_iff.2 hnil), hrepeated, rfl⟩
  · obtain ⟨name, params, retTy, blocks⟩ := fn
    rintro ⟨⟨rfl, rfl, rfl⟩, hblocks, hrepeated, hfinish⟩
    have hempty : b.blocks.reverse.isEmpty = false := List.isEmpty_eq_false_iff.2 hblocks
    unfold build
    simp only [hempty, hrepeated, hfinish]
    rfl

/-- Building gives a function exactly if it has the parts of the builder, is closed, and has labels that
differ, phis of valid types, and in its blocks registers that differ from each other and from the
parameters. -/
theorem build_eq_ok_iff {b : Builder} {fn : FunctionDef} : b.build = .ok fn ↔
    (b.name = fn.name ∧ b.params = fn.params ∧ b.retTy = fn.retTy ∧
      b.blocks.reverse = fn.blocks.map BasicBlock.opened) ∧
    fn.Closed ∧ (fn.blocks.map (·.label)).Nodup ∧
    (∀ block ∈ fn.blocks, ∀ phi ∈ block.phis, phi.ty.isValid = true) ∧
    (fn.blocks.flatMap (·.registers)).Nodup ∧
    ∀ r ∈ fn.blocks.flatMap (·.registers), r ∉ fn.params.map (·.1) := by
  have hlabels : (fn.blocks.map BasicBlock.opened).map (·.label) = fn.blocks.map (·.label) :=
    List.map_map ..
  rw [build_eq_ok_iff_finishBlocks, finishBlocks_eq_ok_iff, exists_define_iff]
  constructor
  · rintro ⟨⟨hname, hparams, hretTy⟩, hblocks, hnodup, hopened, hall, hregisters, hnew⟩
    rw [hopened, hlabels] at hnodup hall
    rw [hparams] at hnew
    have hentry : fn.blocks ≠ [] := by
      intro hnil
      rw [hopened, hnil] at hblocks
      exact hblocks rfl
    exact ⟨⟨hname, hparams, hretTy, hopened⟩, ⟨hentry, fun block hblock => (hall block hblock).1⟩, hnodup,
      fun block hblock => (hall block hblock).2, hregisters, hnew⟩
  · rintro ⟨⟨hname, hparams, hretTy, hopened⟩, hclosed, hnodup, hphis, hregisters, hnew⟩
    rw [hopened, hlabels, hparams]
    exact ⟨⟨hname, rfl, hretTy⟩, fun hnil => hclosed.entry (List.map_eq_nil_iff.1 hnil), hnodup, rfl,
      fun block hblock => ⟨hclosed.labels block hblock, hphis block hblock⟩, hregisters, hnew⟩

/-- Finished functions are closed. -/
theorem closed_of_build {b : Builder} {fn : FunctionDef} (h : b.build = .ok fn) : fn.Closed :=
  (build_eq_ok_iff.1 h).2.1

end Builder

end PointerSemantics
