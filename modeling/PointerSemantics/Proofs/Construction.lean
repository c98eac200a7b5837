import Mathlib.Data.List.Basic
import PointerSemantics.Proofs.Pieces

/-!
# What is built

The calls of a builder make a function exactly if what they add is structured: there is an entry, each label
stands for one block, each register is defined in one place, and phis have valid types. The function consists
of exactly what was added (`Builder.build_eq_ok_iff_structured`).

Types other than those of phis are not looked at. An invalid type of a parameter, an instruction or the result
is passed on (`Builder.wide_build`).
-/

namespace PointerSemantics

/-! ## Structured functions -/

/-- The function has an entry, every label that is jumped to stands for exactly one block, registers are
defined once, and phis have valid types. -/
structure FunctionDef.Structured (fn : FunctionDef) : Prop where
  entry : fn.blocks ≠ []
  labels : (fn.blocks.map (·.label)).Nodup
  targets : ∀ b ∈ fn.blocks, ∀ l ∈ b.terminator.successors,
    ∃! index : Nat, (fn.blocks.map (·.label))[index]? = some l
  registers : (fn.params.map (·.1) ++ fn.blocks.flatMap (·.registers)).Nodup
  phis : ∀ b ∈ fn.blocks, ∀ phi ∈ b.phis, phi.ty.isValid = true

/-- The types of the result, the parameters, the phis and the instructions. -/
def FunctionDef.types (fn : FunctionDef) : List Ty :=
  fn.retTy :: (fn.params.map (·.2) ++ (fn.blocks.flatMap (·.phis)).map (·.ty) ++
    (fn.blocks.flatMap (·.instructions)).flatMap Instruction.types)

theorem FunctionDef.existsUnique_index {fn : FunctionDef} (h : (fn.blocks.map (·.label)).Nodup) {l : String} :
    (∃! index : Nat, (fn.blocks.map (·.label))[index]? = some l) ↔ l ∈ fn.blocks.map (·.label) := by
  constructor
  · rintro ⟨index, hindex, -⟩
    exact List.mem_of_getElem? hindex
  · intro hl
    obtain ⟨index, hindex⟩ := List.mem_iff_getElem?.1 hl
    refine ⟨index, hindex, ?_⟩
    intro other hother
    obtain ⟨hlt, -⟩ := List.getElem?_eq_some_iff.1 hother
    exact (List.getElem?_inj hlt h).1 (hother.trans hindex.symm)

namespace Builder

/-- What building checks, for a builder whose parameters differ. -/
theorem ParamsWf.build_eq_ok_iff {b : Builder} {fn : FunctionDef} (h : b.ParamsWf) : b.build = .ok fn ↔
    (b.name = fn.name ∧ b.params = fn.params ∧ b.retTy = fn.retTy ∧
      b.blocks.reverse = fn.blocks.map BasicBlock.opened) ∧ fn.Structured := by
  rw [Builder.build_eq_ok_iff]
  apply and_congr_right
  rintro ⟨-, hparams, -, -⟩
  constructor
  · rintro ⟨hclosed, hlabels, hphis, hregisters, hnew⟩
    refine ⟨hclosed.entry, hlabels, ?_, ?_, hphis⟩
    · intro b hb l hl
      exact (FunctionDef.existsUnique_index hlabels).2 (hclosed.labels b hb l hl)
    · refine List.nodup_append.2 ⟨hparams ▸ h.nodup, hregisters, ?_⟩
      intro r hr s hs heq
      exact hnew s hs (heq ▸ hr)
  · rintro ⟨hentry, hlabels, htargets, hnodup, hphis⟩
    obtain ⟨-, hregisters, hdiffer⟩ := List.nodup_append.1 hnodup
    refine ⟨⟨hentry, ?_⟩, hlabels, hphis, hregisters, ?_⟩
    · intro b hb l hl
      exact (FunctionDef.existsUnique_index hlabels).1 (htargets b hb l hl)
    · intro r hr hmem
      exact hdiffer r hmem r hr rfl

/-! ## Building what was collected -/

variable {pieces : List Piece} {fn : FunctionDef}

/-- Building gives exactly the structured functions that consist of the pieces. -/
theorem Records.build_eq_ok_iff {b : Builder} (h : b.Records pieces) (hmade : b.Made) (fn : FunctionDef) :
    b.build = .ok fn ↔
    (fn.name = b.name ∧ fn.retTy = b.retTy ∧ fn.params = pieces.filterMap Piece.param? ∧
      fn.blocks.map BasicBlock.parts = (sections pieces).2.map Section.parts) ∧ fn.Structured := by
  have hopened : b.blocks.reverse = fn.blocks.map BasicBlock.opened ↔
      fn.blocks.map BasicBlock.parts = (sections pieces).2.map Section.parts := by
    have hmap : (fn.blocks.map BasicBlock.opened).map OpenBlock.parts = fn.blocks.map BasicBlock.parts :=
      List.map_map ..
    rw [← h.blocks, ← hmap, eq_comm]
    exact (List.map_injective_iff.2 OpenBlock.parts_injective).eq_iff.symm
  rw [hmade.paramsWf.build_eq_ok_iff, hopened, h.params]
  constructor
  · rintro ⟨⟨hname, hparams, hretTy, hblocks⟩, hstructured⟩
    exact ⟨⟨hname.symm, hretTy.symm, hparams.symm, hblocks⟩, hstructured⟩
  · rintro ⟨⟨hname, hretTy, hparams, hblocks⟩, hstructured⟩
    exact ⟨⟨hname.symm, hparams.symm, hretTy.symm, hblocks⟩, hstructured⟩

theorem forall_mem_functionTypes_iff {q : Ty → Prop} : (∀ ty ∈ fn.types, q ty) ↔
    q fn.retTy ∧ (∀ x ∈ fn.params, q x.2) ∧ (∀ p ∈ fn.blocks.flatMap (·.phis), q p.ty) ∧
      ∀ i ∈ fn.blocks.flatMap (·.instructions), ∀ ty ∈ i.types, q ty := by
  simp only [FunctionDef.types, List.forall_mem_cons, List.forall_mem_append, List.forall_mem_map,
    List.forall_mem_flatMap, and_assoc]

/-- What is collected from the blocks is what was added, kind by kind. -/
theorem flatMap_of_sections {α : Type} (get : Parts → List α) (f : Piece → Option α)
    (hget : ∀ s : Section, get s.parts = s.pieces.filterMap f) (hparam : ∀ r ty, f (.param r ty) = none)
    (hlabel : ∀ l, f (.label l) = none) (hearly : (sections pieces).1 = [])
    (hblocks : fn.blocks.map BasicBlock.parts = (sections pieces).2.map Section.parts) :
    fn.blocks.flatMap (fun b => get b.parts) = pieces.filterMap f := by
  calc fn.blocks.flatMap (fun b => get b.parts)
      = (fn.blocks.map BasicBlock.parts).flatMap get := by rw [List.flatMap_map]
    _ = (sections pieces).2.flatMap (fun s => get s.parts) := by rw [hblocks, List.flatMap_map]
    _ = (sections pieces).2.flatMap (fun s => s.pieces.filterMap f) := by simp only [hget]
    _ = pieces.filterMap f := by rw [filterMap_sections hparam hlabel, hearly]; rfl

/-- The types of a function that was built are all valid exactly if its pieces name valid types only. -/
theorem Records.types_isValid_iff {b : Builder} (h : b.Records pieces)
    (hparams : fn.params = pieces.filterMap Piece.param?)
    (hblocks : fn.blocks.map BasicBlock.parts = (sections pieces).2.map Section.parts) :
    (∀ ty ∈ fn.types, ty.isValid = true) ↔
      fn.retTy.isValid = true ∧ ∀ piece ∈ pieces, ∀ ty ∈ piece.types, ty.isValid = true := by
  have hphis : fn.blocks.flatMap (·.phis) = pieces.filterMap Piece.phi? :=
    flatMap_of_sections Parts.phis Piece.phi? (fun _ => rfl) (fun _ _ => rfl) (fun _ => rfl) h.early
      hblocks
  have hinstructions : fn.blocks.flatMap (·.instructions) = pieces.filterMap Piece.instruction? :=
    flatMap_of_sections Parts.instructions Piece.instruction? (fun _ => rfl) (fun _ _ => rfl) (fun _ => rfl)
      h.early hblocks
  rw [forall_mem_functionTypes_iff, forall_mem_types_iff, hparams, hphis, hinstructions]

/-- Building accepts exactly the structured functions. Whatever calls are made, refused ones included, it
succeeds with a function exactly if the function has the name and the result the builder was started with,
consists of the pieces the calls added, in their order and in the block they were added to, and is structured.
Types are passed on: those of the function are all valid exactly if the result type and the types in the
pieces are. -/
theorem build_eq_ok_iff_structured {name : String} {retTy : Ty} {calls : List Call} {pieces : List Piece}
    {b : Builder} (hcalls : performAll calls (new name retTy) = (pieces, b)) (fn : FunctionDef) :
    (b.build = .ok fn ↔
      (fn.name = name ∧ fn.retTy = retTy ∧ fn.params = pieces.filterMap Piece.param? ∧
        fn.blocks.map BasicBlock.parts = (sections pieces).2.map Section.parts) ∧ fn.Structured) ∧
    (b.build = .ok fn → ((∀ ty ∈ fn.types, ty.isValid = true) ↔
      retTy.isValid = true ∧ ∀ piece ∈ pieces, ∀ ty ∈ piece.types, ty.isValid = true)) := by
  have hmade : b.Made := by simpa only [hcalls] using (Made.new name retTy).performAll calls
  have hrecords : b.Records pieces := by
    simpa only [hcalls, List.nil_append] using (records_new name retTy).performAll calls
  have hnames := names_performAll calls (new name retTy)
  rw [hcalls] at hnames
  obtain ⟨hname, hretTy⟩ : b.name = name ∧ b.retTy = retTy := hnames
  have hbuild := hrecords.build_eq_ok_iff hmade fn
  rw [hname, hretTy] at hbuild
  refine ⟨hbuild, ?_⟩
  intro h
  obtain ⟨⟨-, rfl, hparams, hblocks⟩, -⟩ := hbuild.1 h
  exact hrecords.types_isValid_iff hparams hblocks

/-- Doubles an argument until it wraps around. Some of the calls are refused: an instruction outside of a block,
and a second terminator and a phi behind the first one. -/
def doublingCalls : List Call :=
  [.param (.int 8), .push (.free (.reg 0)), .block "entry", .terminate (.br "loop"), .terminate .unreachable,
    .phi (.int 8) [], .block "loop", .phi (.int 8) [(.reg 0, "entry"), (.reg 3, "loop")],
    .pushDef (.binOp · .add (.int 8) (.reg 2) (.reg 2)), .pushDef (.icmp · .ule (.int 8) (.reg 2) (.reg 3)),
    .terminate (.condBr (.reg 4) "loop" "done"), .block "done", .terminate (.ret (.reg 3))]

def doublingFunction : FunctionDef where
  name := "double"
  params := [(0, .int 8)]
  retTy := .int 8
  blocks :=
    [{ label := "entry", phis := [], instructions := [], terminator := .br "loop" },
      { label := "loop"
        phis := [⟨2, .int 8, [(.reg 0, "entry"), (.reg 3, "loop")]⟩]
        instructions :=
          [.binOp 3 .add (.int 8) (.reg 2) (.reg 2), .icmp 4 .ule (.int 8) (.reg 2) (.reg 3)]
        terminator := .condBr (.reg 4) "loop" "done" },
      { label := "done", phis := [], instructions := [], terminator := .ret (.reg 3) }]

/-- The calls make that function, which is structured, and whose types are valid as those of the calls are. -/
theorem doublingCalls_structured :
    (performAll doublingCalls (new "double" (.int 8))).2.build = .ok doublingFunction ∧
      doublingFunction.Structured ∧ ∀ ty ∈ doublingFunction.types, ty.isValid = true := by
  have hcalls : performAll doublingCalls (new "double" (.int 8)) =
      ((performAll doublingCalls (new "double" (.int 8))).1,
        (performAll doublingCalls (new "double" (.int 8))).2) := rfl
  obtain ⟨hiff, htypes⟩ := build_eq_ok_iff_structured hcalls doublingFunction
  have hbuild : (performAll doublingCalls (new "double" (.int 8))).2.build = .ok doublingFunction := by
    decide +kernel
  have hpieces : ∀ piece ∈ (performAll doublingCalls (new "double" (.int 8))).1, ∀ ty ∈ piece.types,
      ty.isValid = true := by
    decide +kernel
  exact ⟨hbuild, (hiff.1 hbuild).2, (htypes hbuild).2 ⟨by decide, hpieces⟩⟩

/-- Integers of 65 bits and of none: the result, the parameter and what is loaded have invalid types. -/
def wideCalls : List Call :=
  [.param (.int 0), .block "entry", .pushDef (.load · (.int 65) (.reg 0)), .terminate (.ret (.reg 1))]

/-- Only the types of phis are looked at when a function is built. -/
theorem wide_build :
    ∃ fn, (performAll wideCalls (new "wide" (.int 65))).2.build = .ok fn ∧ fn.retTy.isValid = false ∧
      (∃ x ∈ fn.params, x.2.isValid = false) ∧
        ∃ b ∈ fn.blocks, ∃ i ∈ b.instructions, ∃ ty ∈ i.types, ty.isValid = false := by
  refine ⟨⟨"wide", [(0, .int 0)], .int 65, [⟨"entry", [], [.load 1 (.int 65) (.reg 0)], .ret (.reg 1)⟩]⟩,
    ?_, ?_, ?_, ?_⟩ <;> decide +kernel

end Builder

end PointerSemantics
