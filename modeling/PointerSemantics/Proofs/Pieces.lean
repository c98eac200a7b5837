import PointerSemantics.Proofs.Definitions

/-!
# What the calls of a builder add

A call that is not refused adds one piece to the function under construction: a parameter, a label, a phi, an
instruction or a terminator. After calls in a row, refused ones included, a builder has collected exactly the
pieces they added, those behind a label in the block with that label (`Builder.Records.performAll`).
-/

namespace PointerSemantics

/-- The types an instruction names. -/
def Instruction.types : Instruction → List Ty
  | binOp _ _ ty .. | icmp _ _ ty .. | select _ _ ty .. | gep _ _ ty .. | psub _ ty .. | ptrToInt _ _ ty
  | intToPtr _ _ ty | load _ ty _ | store ty .. | malloc _ ty _ | alloca _ ty _ => [ty]
  | bitcast _ source _ target => [source, target]
  | free _ | call .. => []

namespace Builder

/-! ## Calls and their pieces -/

/-- A call of a builder. -/
inductive Call where
  | fresh
  | param (ty : Ty)
  | block (label : String)
  | push (i : Instruction)
  /-- The instruction is made from the register it is to bind -/
  | pushDef (make : Reg → Instruction)
  | phi (ty : Ty) (incoming : List (Operand × String))
  | terminate (t : Terminator)

/-- What a call adds to a function. -/
inductive Piece where
  | param (r : Reg) (ty : Ty)
  | label (l : String)
  | phi (phi : Phi)
  | instruction (i : Instruction)
  | terminator (t : Terminator)

namespace Piece

def param? : Piece → Option (Reg × Ty)
  | param r ty => some (r, ty)
  | _ => none

def phi? : Piece → Option Phi
  | phi p => some p
  | _ => none

def instruction? : Piece → Option Instruction
  | instruction i => some i
  | _ => none

def terminator? : Piece → Option Terminator
  | terminator t => some t
  | _ => none

/-- The piece goes into a block. -/
def isInner : Piece → Bool
  | phi _ | instruction _ | terminator _ => true
  | param .. | label _ => false

/-- The types a piece names. -/
def types : Piece → List Ty
  | param _ ty => [ty]
  | phi p => [p.ty]
  | instruction i => i.types
  | label _ | terminator _ => []

end Piece

/-- What a call adds, and the builder after it. A call that is refused adds nothing. -/
def Call.perform (b : Builder) : Call → Option Piece × Builder
  | fresh => (none, b.fresh.2)
  | param ty => (some (.param (b.param ty).1 ty), (b.param ty).2)
  | block label => (some (.label label), b.block label)
  | push i =>
    match b.push i with
    | .ok b' => (some (.instruction i), b')
    | .error _ => (none, b)
  | pushDef make =>
    match b.pushDef make with
    | (.ok r, b') => (some (.instruction (make r)), b')
    | (.error _, b') => (none, b')
  | phi ty incoming =>
    match b.phi ty incoming with
    | (.ok r, b') => (some (.phi ⟨r, ty, incoming⟩), b')
    | (.error _, b') => (none, b')
  | terminate t =>
    match b.terminate t with
    | .ok b' => (some (.terminator t), b')
    | .error _ => (none, b)

/-- The pieces that calls in a row add, and the builder after them. -/
def performAll : List Call → Builder → List Piece × Builder
  | [], b => ([], b)
  | call :: rest, b =>
    ((call.perform b).1.toList ++ (performAll rest (call.perform b).2).1,
      (performAll rest (call.perform b).2).2)

/-- A label with the pieces behind it. -/
structure Section where
  label : String
  pieces : List Piece

/-- The inner pieces ahead of the first label, and each label with the inner pieces up to the next one. -/
def sections : List Piece → List Piece × List Section
  | [] => ([], [])
  | piece :: rest =>
    match piece with
    | .param .. => sections rest
    | .label l => ([], ⟨l, (sections rest).1⟩ :: (sections rest).2)
    | piece => (piece :: (sections rest).1, (sections rest).2)

/-- The parts of a block, sorted by their kind. -/
structure Parts where
  label : String
  phis : List Phi
  instructions : List Instruction
  terminators : List Terminator

def Section.parts (s : Section) : Parts :=
  ⟨s.label, s.pieces.filterMap Piece.phi?, s.pieces.filterMap Piece.instruction?,
    s.pieces.filterMap Piece.terminator?⟩

end Builder

def OpenBlock.parts (o : OpenBlock) : Builder.Parts :=
  ⟨o.label, o.phis, o.instructions, o.terminator.toList⟩

/-- An open block with one more piece. -/
def OpenBlock.add (o : OpenBlock) : Builder.Piece → OpenBlock
  | .phi p => { o with phis := o.phis ++ [p] }
  | .instruction i => { o with instructions := o.instructions ++ [i] }
  | .terminator t => { o with terminator := some t }
  | .param .. | .label _ => o

def BasicBlock.parts (b : BasicBlock) : Builder.Parts :=
  ⟨b.label, b.phis, b.instructions, [b.terminator]⟩

theorem OpenBlock.parts_injective : Function.Injective OpenBlock.parts := by
  rintro ⟨label, phis, instructions, t⟩ ⟨label', phis', instructions', t'⟩ h
  obtain ⟨rfl, rfl, rfl, hterminator⟩ := Builder.Parts.mk.inj h
  cases t <;> cases t' <;> simp at hterminator <;> simp [hterminator]

namespace Builder

/-! ## Sections grow at the end -/

variable {pieces : List Piece}

theorem sections_append_param (r : Reg) (ty : Ty) :
    sections (pieces ++ [.param r ty]) = sections pieces := by
  induction pieces with
  | nil => rfl
  | cons piece rest ih => cases piece <;> simp [sections, ih]

theorem sections_append_label (l : String) :
    sections (pieces ++ [.label l]) = ((sections pieces).1, (sections pieces).2 ++ [⟨l, []⟩]) := by
  induction pieces with
  | nil => rfl
  | cons piece rest ih => cases piece <;> simp [sections, ih]

theorem sections_append_of_nil {piece : Piece} (hinner : piece.isInner = true)
    (h : (sections pieces).2 = []) : sections (pieces ++ [piece]) = ((sections pieces).1 ++ [piece], []) := by
  induction pieces with
  | nil => cases piece <;> first | rfl | cases hinner
  | cons first rest ih => cases first <;> simp_all [sections]

theorem sections_append_of_concat {piece : Piece} (hinner : piece.isInner = true) {init : List Section}
    {s : Section} (h : (sections pieces).2 = init ++ [s]) :
    sections (pieces ++ [piece]) = ((sections pieces).1, init ++ [⟨s.label, s.pieces ++ [piece]⟩]) := by
  induction pieces generalizing init with
  | nil => simp [sections] at h
  | cons first rest ih =>
    cases first with
    | label l =>
      have hsections : (⟨l, (sections rest).1⟩ :: (sections rest).2 : List Section) = init ++ [s] := h
      show ([], (⟨l, (sections (rest ++ [piece])).1⟩ :: (sections (rest ++ [piece])).2 : List Section)) = _
      -- this label is the last one, or one of the labels behind it is
      cases init with
      | nil =>
        obtain ⟨rfl, hnil⟩ := List.cons.inj hsections
        rw [sections_append_of_nil hinner hnil]
        rfl
      | cons t init =>
        obtain ⟨rfl, hrest⟩ := List.cons.inj hsections
        rw [ih hrest]
        rfl
    | param r ty => exact ih h
    | phi p => simp [sections, ih h]
    | instruction i => simp [sections, ih h]
    | terminator t => simp [sections, ih h]

/-- What ends up in sections was added one by one. -/
theorem filterMap_sections {α : Type} {f : Piece → Option α} (hparam : ∀ r ty, f (.param r ty) = none)
    (hlabel : ∀ l, f (.label l) = none) (pieces : List Piece) :
    pieces.filterMap f =
      (sections pieces).1.filterMap f ++ (sections pieces).2.flatMap fun s => s.pieces.filterMap f := by
  induction pieces with
  | nil => rfl
  | cons piece rest ih =>
    cases piece with
    | param r ty => rw [List.filterMap_cons_none (hparam r ty), ih]; rfl
    | label l => rw [List.filterMap_cons_none (hlabel l), ih]; rfl
    | phi p | instruction i | terminator t =>
      show List.filterMap f (_ :: rest) = List.filterMap f (_ :: (sections rest).1) ++ _
      rw [List.filterMap_cons, List.filterMap_cons, ih]
      split <;> rfl

theorem parts_add {o : OpenBlock} {s : Section} {piece : Piece} (hinner : piece.isInner = true)
    (hopen : o.terminator = none) (h : o.parts = s.parts) :
    (o.add piece).parts = Section.parts ⟨s.label, s.pieces ++ [piece]⟩ := by
  obtain ⟨hlabel, hphis, hinstructions, hterminators⟩ := Parts.mk.inj h
  rw [hopen] at hterminators
  cases piece with
  | param r ty | label l => cases hinner
  | phi p | instruction i | terminator t =>
    simp [OpenBlock.add, OpenBlock.parts, Section.parts, Piece.phi?, Piece.instruction?, Piece.terminator?,
      hlabel, hphis, hinstructions, hopen, ← hterminators]

/-- The types that pieces name are those of their parameters, phis and instructions. -/
theorem forall_mem_types_iff {pieces : List Piece} {q : Ty → Prop} :
    (∀ piece ∈ pieces, ∀ ty ∈ piece.types, q ty) ↔
      (∀ x ∈ pieces.filterMap Piece.param?, q x.2) ∧ (∀ p ∈ pieces.filterMap Piece.phi?, q p.ty) ∧
        ∀ i ∈ pieces.filterMap Piece.instruction?, ∀ ty ∈ i.types, q ty := by
  induction pieces with
  | nil => simp
  | cons piece rest ih =>
    rw [List.forall_mem_cons, ih]
    cases piece with
    | param r ty => simp [Piece.types, Piece.param?, Piece.phi?, Piece.instruction?, and_assoc]
    | phi p =>
      simp only [Piece.types, Piece.param?, Piece.phi?, Piece.instruction?, List.filterMap_cons,
        List.forall_mem_cons]
      tauto
    | instruction i =>
      simp only [Piece.types, Piece.param?, Piece.phi?, Piece.instruction?, List.filterMap_cons,
        List.forall_mem_cons]
      tauto
    | label l | terminator t => simp [Piece.types, Piece.param?, Piece.phi?, Piece.instruction?]

/-! ## What one call does -/

/-- The second builder has the piece more than the first, and nothing else of its function is different. -/
structure Gains (b b' : Builder) (piece : Option Piece) : Prop where
  name : b'.name = b.name
  retTy : b'.retTy = b.retTy
  parts : match piece with
    | none => b'.params = b.params ∧ b'.blocks = b.blocks
    | some (.param r ty) => b'.params = b.params ++ [(r, ty)] ∧ b'.blocks = b.blocks
    | some (.label l) => b'.params = b.params ∧ b'.blocks = ⟨l, [], [], none⟩ :: b.blocks
    | some piece => b'.params = b.params ∧ ∃ o rest,
        b.blocks = o :: rest ∧ o.terminator = none ∧ b'.blocks = o.add piece :: rest

theorem gains_of_modifyCurrent {b b' : Builder} {piece : Piece} (hinner : piece.isInner = true)
    (h : b.modifyCurrent (·.add piece) = .ok b') : b.Gains b' (some piece) := by
  obtain ⟨o, rest, hblocks, hopen, rfl⟩ := modifyCurrent_eq_ok_iff.1 h
  cases piece with
  | param r ty | label l => cases hinner
  | phi p | instruction i | terminator t => exact ⟨rfl, rfl, rfl, o, rest, hblocks, hopen, rfl⟩

/-- Handing out a register adds nothing. -/
theorem Gains.of_fresh {b b' : Builder} {piece : Option Piece} (h : b.fresh.2.Gains b' piece) :
    b.Gains b' piece :=
  ⟨h.name, h.retTy, h.parts⟩

theorem Call.gains_perform (call : Call) (b : Builder) :
    b.Gains (call.perform b).2 (call.perform b).1 := by
  cases call with
  | fresh | param ty | block label => exact ⟨rfl, rfl, rfl, rfl⟩
  | push i =>
    simp only [perform]
    split
    · next b' h =>
      have hadd : b.modifyCurrent (·.add (.instruction i)) = .ok b' := h
      exact gains_of_modifyCurrent rfl hadd
    · exact ⟨rfl, rfl, rfl, rfl⟩
  | pushDef make =>
    simp only [perform, Builder.pushDef]
    cases h : b.fresh.2.push (make b.fresh.1) with
    | error e => exact ⟨rfl, rfl, rfl, rfl⟩
    | ok b' =>
      have hadd : b.fresh.2.modifyCurrent (·.add (.instruction (make b.fresh.1))) = .ok b' := h
      exact (gains_of_modifyCurrent rfl hadd).of_fresh
  | phi ty incoming =>
    simp only [perform, Builder.phi]
    cases h : b.fresh.2.modifyCurrent fun o => { o with phis := o.phis ++ [⟨b.fresh.1, ty, incoming⟩] } with
    | error e => exact ⟨rfl, rfl, rfl, rfl⟩
    | ok b' =>
      have hadd : b.fresh.2.modifyCurrent (·.add (.phi ⟨b.fresh.1, ty, incoming⟩)) = .ok b' := h
      exact (gains_of_modifyCurrent rfl hadd).of_fresh
  | terminate t =>
    simp only [perform]
    split
    · next b' h =>
      have hadd : b.modifyCurrent (·.add (.terminator t)) = .ok b' := h
      exact gains_of_modifyCurrent rfl hadd
    · exact ⟨rfl, rfl, rfl, rfl⟩

theorem Made.perform {b : Builder} (h : b.Made) (call : Call) : (call.perform b).2.Made := by
  cases call with
  | fresh => exact h.fresh
  | param ty => exact h.param ty
  | block label => exact h.block label
  | push i =>
    simp only [Call.perform]
    split
    · next b' hb => exact h.push hb
    · exact h
  | pushDef make =>
    have hmade := h.pushDef make
    simp only [Call.perform]
    split <;> next heq => rw [heq] at hmade; exact hmade
  | phi ty incoming =>
    have hmade := h.phi ty incoming
    simp only [Call.perform]
    split <;> next heq => rw [heq] at hmade; exact hmade
  | terminate t =>
    simp only [Call.perform]
    split
    · next b' hb => exact h.terminate hb
    · exact h

/-! ## What calls in a row do -/

/-- The builder has collected the pieces: the parameters in their order, and each block behind its label. -/
structure Records (b : Builder) (pieces : List Piece) : Prop where
  params : b.params = pieces.filterMap Piece.param?
  blocks : b.blocks.reverse.map OpenBlock.parts = (sections pieces).2.map Section.parts
  early : (sections pieces).1 = []

theorem records_new (name : String) (retTy : Ty) : (new name retTy).Records [] := ⟨rfl, rfl, rfl⟩

theorem Records.inner {b b' : Builder} {piece : Piece} (h : b.Records pieces) (hinner : piece.isInner = true)
    (hparam : piece.param? = none) (hgains : b'.params = b.params ∧ ∃ o rest,
      b.blocks = o :: rest ∧ o.terminator = none ∧ b'.blocks = o.add piece :: rest) :
    b'.Records (pieces ++ [piece]) := by
  obtain ⟨hparams, o, rest, hblocks, hopen, hblocks'⟩ := hgains
  -- the open block is the one of the last section
  have hparts := h.blocks
  rw [hblocks, List.reverse_cons, List.map_append] at hparts
  obtain ⟨init, last, hsections, hinit, hlast⟩ := List.map_eq_append_iff.1 hparts.symm
  obtain ⟨s, rfl, hs⟩ := List.map_eq_singleton_iff.1 hlast
  have hgrown := sections_append_of_concat hinner hsections
  constructor
  · rw [hparams, h.params, List.filterMap_append, List.filterMap_cons_none hparam]
    exact (List.append_nil _).symm
  · rw [hgrown, hblocks', List.reverse_cons, List.map_append, List.map_append, hinit, List.map_singleton,
      parts_add hinner hopen hs.symm]
    rfl
  · rw [hgrown]
    exact h.early

/-- The step: whatever a call adds is recorded. -/
theorem Records.gains {b b' : Builder} {piece : Option Piece} (h : b.Records pieces)
    (hgains : b.Gains b' piece) : b'.Records (pieces ++ piece.toList) := by
  obtain ⟨-, -, hparts⟩ := hgains
  cases piece with
  | none =>
    obtain ⟨hparams, hblocks⟩ := hparts
    rw [Option.toList_none, List.append_nil]
    exact ⟨hparams.trans h.params, hblocks ▸ h.blocks, h.early⟩
  | some piece =>
    rw [Option.toList_some]
    cases piece with
    | param r ty =>
      obtain ⟨hparams, hblocks⟩ := hparts
      refine ⟨?_, ?_, ?_⟩
      · rw [hparams, h.params, List.filterMap_append]
        rfl
      · rw [sections_append_param, hblocks, h.blocks]
      · rw [sections_append_param, h.early]
    | label l =>
      obtain ⟨hparams, hblocks⟩ := hparts
      refine ⟨?_, ?_, ?_⟩
      · rw [hparams, h.params, List.filterMap_append]
        exact (List.append_nil _).symm
      · rw [sections_append_label, hblocks, List.reverse_cons, List.map_append, h.blocks, List.map_append]
        rfl
      · rw [sections_append_label, h.early]
    | phi p => exact h.inner rfl rfl hparts
    | instruction i => exact h.inner rfl rfl hparts
    | terminator t => exact h.inner rfl rfl hparts

/-- The run: what calls in a row add is recorded. -/
theorem Records.performAll {b : Builder} (h : b.Records pieces) (calls : List Call) :
    (performAll calls b).2.Records (pieces ++ (performAll calls b).1) := by
  induction calls generalizing b pieces with
  | nil =>
    show b.Records (pieces ++ [])
    rwa [List.append_nil]
  | cons call rest ih =>
    have hrest := ih (h.gains (call.gains_perform b))
    rwa [List.append_assoc] at hrest

theorem Made.performAll {b : Builder} (h : b.Made) (calls : List Call) : (performAll calls b).2.Made := by
  induction calls generalizing b with
  | nil => exact h
  | cons call rest ih => exact ih (h.perform call)

theorem names_performAll (calls : List Call) (b : Builder) :
    (performAll calls b).2.name = b.name ∧ (performAll calls b).2.retTy = b.retTy := by
  induction calls generalizing b with
  | nil => exact ⟨rfl, rfl⟩
  | cons call rest ih =>
    obtain ⟨hname, hretTy⟩ := ih (call.perform b).2
    have hgains := call.gains_perform b
    exact ⟨hname.trans hgains.name, hretTy.trans hgains.retTy⟩

end Builder

end PointerSemantics
