import PointerSemantics.Proofs.Build
import PointerSemantics.Proofs.Steps

/-!
# Definitions of registers

`FunctionDef.definitions` lists every place of a function that binds a register, with the type of
what it binds. Building refuses a second definition in the blocks, and a builder that only its own
calls have changed never gives a register to two parameters, so the functions it finishes define
each register once (`Builder.Made.nodup_definitions`).
-/

namespace PointerSemantics

/-! ## Where registers are defined -/

/-- The register an instruction binds, with the type of its value. A call binds what its callee
returns, if there is such a function. -/
def Instruction.definition? (p : Program) (i : Instruction) : Option (Reg × Option Ty) :=
  i.def?.map fun r =>
    match i with
    | call _ callee _ => (r, (p callee).map (·.retTy))
    | _ => (r, i.valueTy?)

/-- The definitions in a block, in the order in which they are built. -/
def BasicBlock.definitions (p : Program) (b : BasicBlock) : List (Reg × Option Ty) :=
  b.phis.map (fun phi => (phi.dst, some phi.ty)) ++ b.instructions.filterMap (·.definition? p)

/-- Every definition of a register in a function, with its type. -/
def FunctionDef.definitions (p : Program) (fn : FunctionDef) : List (Reg × Option Ty) :=
  fn.params.map (fun (r, ty) => (r, some ty)) ++ fn.blocks.flatMap (·.definitions p)

variable {p : Program}

theorem Instruction.map_fst_definition? (i : Instruction) :
    (i.definition? p).map (·.1) = i.def? := by
  unfold definition?
  rw [Option.map_map]
  cases i <;> simp [def?, Function.comp_def]

/-- Whatever binds a register, other than a call, says itself of which type. -/
theorem Instruction.exists_valueTy? {i : Instruction} {r : Reg} (hcall : i.category ≠ .call)
    (hr : i.def? = some r) : ∃ ty, i.valueTy? = some ty ∧ i.definition? p = some (r, some ty) := by
  cases i with
  | call => exact absurd rfl hcall
  | store | free => cases hr
  | _ =>
    obtain rfl := Option.some.inj hr
    exact ⟨_, rfl, rfl⟩

theorem BasicBlock.map_fst_definitions (b : BasicBlock) :
    (b.definitions p).map (·.1) = b.registers := by
  simp only [definitions, registers, List.map_append, List.map_map, List.map_filterMap,
    Instruction.map_fst_definition?]
  rfl

theorem FunctionDef.map_fst_definitions (fn : FunctionDef) :
    (fn.definitions p).map (·.1) = fn.params.map (·.1) ++ fn.blocks.flatMap (·.registers) := by
  simp only [definitions, List.map_append, List.map_map, List.map_flatMap,
    BasicBlock.map_fst_definitions]
  rfl

namespace FunctionDef

variable {fn : FunctionDef} {r : Reg}

theorem mem_definitions_of_param {ty : Ty} (h : (r, ty) ∈ fn.params) :
    (r, some ty) ∈ fn.definitions p :=
  List.mem_append_left _ (List.mem_map.2 ⟨_, h, rfl⟩)

theorem mem_definitions_of_phi {b : BasicBlock} {phi : Phi} (hb : b ∈ fn.blocks)
    (hphi : phi ∈ b.phis) : (phi.dst, some phi.ty) ∈ fn.definitions p := by
  refine List.mem_append_right _ (List.mem_flatMap.2 ⟨b, hb, ?_⟩)
  exact List.mem_append_left _ (List.mem_map.2 ⟨phi, hphi, rfl⟩)

theorem mem_definitions_of_codeAt? {pc : Pc} {i : Instruction} {ty : Option Ty}
    (hcode : fn.codeAt? pc = some (.instruction i)) (hi : i.definition? p = some (r, ty)) :
    (r, ty) ∈ fn.definitions p := by
  obtain ⟨b, hb, hmem⟩ := codeAt?_instruction hcode
  refine List.mem_append_right _ (List.mem_flatMap.2 ⟨b, List.mem_of_getElem? hb, ?_⟩)
  exact List.mem_append_right _ (List.mem_filterMap.2 ⟨i, List.mem_of_getElem? hmem, hi⟩)

end FunctionDef

namespace Builder

/-! ## Builders -/

/-- The builder was started and then changed by its own calls only, refused ones included. -/
inductive Made : Builder → Prop
  | new (name : String) (retTy : Ty) : Made (new name retTy)
  | fresh {b} (h : Made b) : Made b.fresh.2
  | param {b} (h : Made b) (ty : Ty) : Made (b.param ty).2
  | block {b} (h : Made b) (label : String) : Made (b.block label)
  | push {b b' i} (h : Made b) (hb : b.push i = .ok b') : Made b'
  | pushDef {b} (h : Made b) (make : Reg → Instruction) : Made (b.pushDef make).2
  | phi {b} (h : Made b) (ty : Ty) (incoming : List (Operand × String)) :
    Made (b.phi ty incoming).2
  | terminate {b b' t} (h : Made b) (hb : b.terminate t = .ok b') : Made b'

/-- The parameters have registers of their own, all handed out. -/
structure ParamsWf (b : Builder) : Prop where
  nodup : (b.params.map (·.1)).Nodup
  lt : ∀ r ∈ b.params.map (·.1), r < b.nextReg

theorem ParamsWf.of_eq {b b' : Builder} (h : b.ParamsWf) (hparams : b'.params = b.params)
    (hnext : b.nextReg ≤ b'.nextReg) : b'.ParamsWf where
  nodup := hparams ▸ h.nodup
  lt := fun r hr => Nat.lt_of_lt_of_le (h.lt r (hparams ▸ hr)) hnext

theorem ParamsWf.param {b : Builder} (h : b.ParamsWf) (ty : Ty) : (b.param ty).2.ParamsWf := by
  have hmap : (b.param ty).2.params.map (·.1) = b.params.map (·.1) ++ [b.nextReg] := by
    simp [Builder.param, Builder.fresh]
  refine ⟨?_, fun r hr => ?_⟩
  · rw [hmap]
    refine List.nodup_append.2 ⟨h.nodup, by simp, fun r hr s hs => ?_⟩
    obtain rfl := List.mem_singleton.1 hs
    exact Nat.ne_of_lt (h.lt r hr)
  · rw [hmap, List.mem_append, List.mem_singleton] at hr
    show r < b.nextReg + 1
    rcases hr with hr | rfl
    · exact Nat.lt_succ_of_lt (h.lt r hr)
    · exact Nat.lt_succ_self _

/-- Changing the current block succeeds exactly if there is one without a terminator. -/
theorem modifyCurrent_eq_ok_iff {b b' : Builder} {f : OpenBlock → OpenBlock} :
    b.modifyCurrent f = .ok b' ↔ ∃ current rest, b.blocks = current :: rest ∧ current.terminator = none ∧
      b' = { b with blocks := f current :: rest } := by
  unfold modifyCurrent
  cases hblocks : b.blocks with
  | nil => simp
  | cons current rest =>
    cases hterminator : current.terminator with
    | some t => simp [hterminator]
    | none =>
      simp only [hterminator, Option.isSome_none, Bool.false_eq_true, if_false, Except.ok.injEq]
      constructor
      · rintro rfl
        exact ⟨current, rest, rfl, hterminator, rfl⟩
      · rintro ⟨_, _, hcons, -, rfl⟩
        obtain ⟨rfl, rfl⟩ := List.cons.inj hcons
        rfl

theorem ParamsWf.modifyCurrent {b b' : Builder} {f : OpenBlock → OpenBlock} (h : b.ParamsWf)
    (hb : b.modifyCurrent f = .ok b') : b'.ParamsWf := by
  obtain ⟨current, rest, -, -, rfl⟩ := modifyCurrent_eq_ok_iff.1 hb
  exact h.of_eq rfl (Nat.le_refl _)

theorem ParamsWf.fresh {b : Builder} (h : b.ParamsWf) : b.fresh.2.ParamsWf :=
  h.of_eq rfl (Nat.le_succ _)

theorem Made.paramsWf {b : Builder} (h : b.Made) : b.ParamsWf := by
  induction h with
  | new => exact ⟨List.nodup_nil, nofun⟩
  | fresh _ ih => exact ih.fresh
  | param _ ty ih => exact ih.param ty
  | block _ _ ih => exact ih.of_eq rfl (Nat.le_refl _)
  | push _ hb ih => exact ih.modifyCurrent hb
  | pushDef _ make ih =>
    unfold Builder.pushDef
    dsimp only
    split
    · next hb => exact ih.fresh.modifyCurrent hb
    · exact ih.fresh
  | phi _ ty incoming ih =>
    unfold Builder.phi
    dsimp only
    split
    · next hb => exact ih.fresh.modifyCurrent hb
    · exact ih.fresh
  | terminate _ hb ih => exact ih.modifyCurrent hb

/-- A function that a builder finished defines each register once. -/
theorem Made.nodup_definitions {b : Builder} {fn : FunctionDef} (h : b.Made)
    (hbuild : b.build = .ok fn) : ((fn.definitions p).map (·.1)).Nodup := by
  obtain ⟨⟨-, hparams, -, -⟩, -, -, -, hnodup, hnew⟩ := build_eq_ok_iff.1 hbuild
  rw [FunctionDef.map_fst_definitions]
  refine List.nodup_append.2 ⟨hparams ▸ h.paramsWf.nodup, hnodup, fun r hr s hs heq => ?_⟩
  exact hnew s hs (heq ▸ hr)

end Builder

end PointerSemantics
