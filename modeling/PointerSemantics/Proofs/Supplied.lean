import PointerSemantics.Proofs.Bookkeeping

/-!
# States supplied from outside

The states that a program reaches pass the check, and so do the states after them. A state that was
put together in another way may pass the check and lead to one that does not: the check neither asks
whether a block is listed twice among those that the frames will release, nor how large a dead block
is (`check_not_kept`). With these two conditions the check is kept by every step, together with
them, and a return never fails for a block (`check_and_ret_of_step`).
-/

namespace PointerSemantics

namespace Config

variable {p : Program} {c : Config}

/-- A state that passes the check has the invariants if no block is listed twice and dead blocks are
smaller than the address space. -/
theorem WellFormed.regular (h : c.WellFormed p) (hvalid : c.memory.config.validate = .ok ())
    (hnodup : c.ownedBlocks.Nodup)
    (hdead : ∀ id b, c.memory.get? id = some b → b.isAlive = false →
      b.size < c.memory.config.memsz) :
    c.Regular p := by
  have hbounded : ∀ id b, c.memory.get? id = some b → b.size < c.memory.config.memsz := by
    intro id b hb
    by_cases halive : b.isAlive = true
    · have hblock := h.memory.block id b hb
      exact Memory.size_lt_of_fits (hblock.fits halive b.base hblock.base_mem) hvalid
    · exact hdead id b hb (by simpa using halive)
  have hvalues : ∀ f ∈ c.stack, ∀ r v, f.registers.find? r = some v →
      c.memory.PointsWell v ∧ v.NumberWf :=
    fun f hf r v hv => Memory.valueWf_iff.1 ((h.frames f hf).registers r v hv)
  refine
    { sound := ⟨⟨h.memory, hvalid, hbounded, h.stored⟩, fun f hf r v hv => (hvalues f hf r v hv).1⟩
      numbers := fun f hf r v hv => (hvalues f hf r v hv).2
      stack := h.stack
      calls := h.calls
      code := fun f hf => (h.frames f hf).code
      owns := ⟨hnodup, fun id hid => ?_⟩ }
  obtain ⟨f, hf, hmem⟩ := List.mem_flatMap.1 hid
  exact (h.frames f hf).blocks id hmem

/-- If no block is listed twice and dead blocks are smaller than the address space, a step from a
state that passes the check leads to another such state, whatever an oracle answers, and a return is
never stuck for a reason of memory. -/
theorem check_and_ret_of_step (hp : ∀ id fn, p id = some fn → fn.blocks ≠ [] ∧ fn.intsValid = true)
    (hvalid : c.memory.config.validate = .ok ()) (hcheck : c.check p = .ok ())
    (hnodup : (c.stack.flatMap (·.stackBlocks)).Nodup)
    (hdead : ∀ id b, c.memory.get? id = some b → b.isAlive = false → b.size < c.memory.config.memsz)
    {σ : Type} (o : Oracle σ) (s : σ) :
    (∀ d, (o.resolve s (c.step p)).1 = .ok d →
      d.check p = .ok () ∧ d.memory.config = c.memory.config ∧
        (d.stack.flatMap (·.stackBlocks)).Nodup ∧
        ∀ id b, d.memory.get? id = some b → b.isAlive = false → b.size < d.memory.config.memsz) ∧
      ∀ f rest fn val, c.stack = f :: rest → c.fetch p f = .ok (fn, .terminator (.ret val)) →
        ∀ e, (o.resolve s (c.step p)).1 ≠ .error (.stuck (.memory e)) := by
  have hc : c.Regular p := (check_eq_ok_iff.1 hcheck).regular hvalid hnodup hdead
  constructor
  · intro d hd
    have hsteps : c.Steps p d := steps_of_yields (hd ▸ Ask.yields_resolve o s (c.step p))
    have hd : d.Regular p := hsteps.regular hp hc
    exact ⟨check_eq_ok_iff.2 hd.wellFormed, (hsteps.persists hc.sound.memory.wf).config_eq,
      hd.owns.nodup, fun id b hb _ => hd.sound.memory.bounded id b hb⟩
  · intro f rest fn val hstack hfetch e
    rw [step_terminator hstack hfetch]
    intro hret
    have htracks := hc.owns.tracks_ret hstack fn val _ hret
    simp [Halt.isBookkeeping, StuckReason.isBookkeeping] at htracks

end Config

/-! ## What the check leaves open -/

/-- A function that returns, and one that moves a pointer by four bytes. -/
def suppliedProgram : Program
  | 0 => some ⟨"return", [], .int 8, [⟨"entry", [], [], .ret (.const (.int 8 7))⟩]⟩
  | 1 => some ⟨"move", [], .ptr (.int 8), [⟨"entry", [],
      [.gep 1 true (.int 8) (.reg 0) (.const (.int 8 4))], .ret (.reg 1)⟩]⟩
  | _ => none

/-- Frames of one function on a memory with one block. -/
def suppliedState (block : Block) (stack : List Frame) (function : FunctionId) : Config where
  memory := ⟨Table.empty.insert 0 block, 2, 1, cellConfig⟩
  stack
  callTable := .ofList (stack.map fun f => (f.callId, function))
  nextCallId := stack.length

/-- A byte of the stack. -/
def stackByte : Block := ⟨0, .stack, 8, 1, 0, none, 8, [.poison], .ofList [8]⟩

/-- A return that releases the byte, to a caller that owns nothing. -/
def returning : Config :=
  suppliedState stackByte [⟨1, .entry, .empty, none, [0]⟩, ⟨0, .entry, .empty, none, []⟩] 0

/-- The frame will release the byte twice. -/
def twiceOwned : Config := suppliedState stackByte [⟨0, .entry, .empty, none, [0, 0]⟩] 0

/-- Both frames will release the byte. -/
def shared : Config :=
  suppliedState stackByte [⟨1, .entry, .empty, none, [0]⟩, ⟨0, .entry, .empty, none, [0]⟩] 0

/-- A pointer into a dead block as large as the address space, near its end. -/
def oversized : Config :=
  suppliedState ⟨0, .heap, 8, 64, 0, some 1, 8, List.replicate 64 .poison, .ofList [8]⟩
    [⟨0, .entry, .ofList [(0, .ptr (.logical 0 60))], none, []⟩] 1

theorem suppliedProgram_wf : Config.ProgramWf suppliedProgram := by
  intro id fn hfn
  rcases id with - | - | id
  · obtain rfl := Option.some.inj hfn
    decide
  · obtain rfl := Option.some.inj hfn
    decide
  · simp [suppliedProgram] at hfn

theorem returning_check_and_ret :
    returning.check suppliedProgram = .ok () ∧ ∃ d, returning.step suppliedProgram = .done (.ok d) ∧
      d.check suppliedProgram = .ok () ∧ (d.stack.flatMap (·.stackBlocks)).Nodup := by
  have hcheck : returning.check suppliedProgram = .ok () := by decide +kernel
  have hdead : ∀ id b, returning.memory.get? id = some b → b.isAlive = false →
      b.size < returning.memory.config.memsz := by
    intro id b hb hdead
    rw [show returning.memory.get? id = _ from Table.find?_insert _ _ _ _] at hb
    split at hb
    · obtain rfl := Option.some.inj hb
      simp [stackByte, Block.isAlive] at hdead
    · simp at hb
  obtain ⟨hstep, -⟩ := Config.check_and_ret_of_step suppliedProgram_wf (by decide) hcheck
    (by decide) hdead Oracle.firstFit ()
  obtain ⟨hd, -, hnodup, -⟩ := hstep _ rfl
  exact ⟨hcheck, _, rfl, hd, hnodup⟩

/-- States that pass the check although a block is listed twice or a dead block is too large: a
return is stuck for a dead block, or leaves a frame that owns one, and a move leads out of the
address space. -/
theorem check_not_kept :
    Config.ProgramWf suppliedProgram ∧ cellConfig.validate = .ok () ∧
    (twiceOwned.check suppliedProgram = .ok () ∧
      twiceOwned.step suppliedProgram = .done (.error (.stuck (.memory (.deadBlock 0))))) ∧
    (shared.check suppliedProgram = .ok () ∧ ∃ d, shared.step suppliedProgram = .done (.ok d) ∧
      d.check suppliedProgram = .error (.notLiveStackBlock 0)) ∧
    (oversized.check suppliedProgram = .ok () ∧ ∃ d, oversized.step suppliedProgram = .done (.ok d) ∧
      d.check suppliedProgram = .error (.illFormedRegister 1)) := by
  refine ⟨suppliedProgram_wf, by decide, ⟨by decide +kernel, rfl⟩, ⟨by decide +kernel, _, rfl, ?_⟩,
    by decide +kernel, _, rfl, ?_⟩
  · decide +kernel
  · decide +kernel

end PointerSemantics
