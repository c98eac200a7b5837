import PointerSemantics.Proofs.Reachable
import PointerSemantics.Proofs.Runs
import PointerSemantics.Proofs.Swap.Code
import PointerSemantics.Proofs.Swap.Instructions

/-!
# Two steps at a pair of neighbours

A state at two neighbouring instructions makes two steps, and the results are those of the two
instructions on its memory and registers. Where the second may be done ahead of the first, the two steps
of the exchanged program lead to nothing new (`Config.AtPair.exchange`): the states they reach are states
of the program as it is, up to times.
-/

namespace PointerSemantics

section Effects

variable {m : Memory} {regs regs' : Table Value} {i j : Instruction} {x y : Effect}

theorem Instruction.effect_congr (h : ∀ r ∈ i.uses, regs.find? r = regs'.find? r) (m : Memory) :
    i.effect m regs = i.effect m regs' := by
  rw [effect_eq_act, effect_eq_act, prepare_congr h]

/-- Only an allocation on the stack hands a block to the frame. -/
theorem Instruction.stackBlock_eq_none (h : .ok x ∈ (i.effect m regs).results)
    (hi : i.category ≠ .alloca) : x.stackBlock = none := by
  cases effect_does (Ask.yields_of_mem_results h) with
  | bind | store | free | malloc => rfl
  | alloca => exact absurd rfl hi

end Effects

namespace Frame

variable {f : Frame} {i j : Instruction} {x y x' y' : Effect}

theorem find?_advance {r : Reg} (hr : i.def? ≠ some r) :
    (f.advance i x).registers.find? r = f.registers.find? r := by
  unfold advance
  dsimp only
  split
  · next dst v hdst _ =>
    rw [Table.find?_insert, if_neg]
    rintro rfl
    exact hr hdst
  · rfl

/-- Two instructions that bind different registers leave the same frame in both orders. -/
theorem advance_comm (hdefs : ∀ r, i.def? = some r → j.def? ≠ some r) (hx : x'.Agrees x)
    (hy : y'.Agrees y) (hblock : x'.stackBlock = none ∨ y'.stackBlock = none) :
    (f.advance i x').advance j y' = (f.advance j y).advance i x := by
  unfold advance
  rw [hx.value, hx.stackBlock, hy.value, hy.stackBlock] at *
  have hblocks : f.stackBlocks ++ x.stackBlock.toList ++ y.stackBlock.toList =
      f.stackBlocks ++ y.stackBlock.toList ++ x.stackBlock.toList := by
    rcases hblock with h | h <;> simp [h]
  dsimp only
  rw [hblocks]
  congr 1
  cases hi : i.def? with
  | none => cases j.def? <;> rfl
  | some r =>
    cases hj : j.def? with
    | none => rfl
    | some s =>
      cases x.value with
      | none => rfl
      | some v =>
        cases y.value with
        | none => rfl
        | some w =>
          refine Table.insert_comm _ ?_ v w
          rintro rfl
          exact hdefs r hi hj

end Frame

namespace Config

variable {p p' : Program} {c d : Config} {f : Frame} {rest : List Frame} {i j : Instruction} {n : Nat}

/-! ## Two steps -/

/-- What two steps lead to. -/
inductive TwoSteps (p : Program) (c : Config) : Exec Config → Prop
  | first {e} (h : .error e ∈ c.successors p) : TwoSteps p c (.error e)
  | second {d r} (hd : .ok d ∈ c.successors p) (hr : r ∈ d.successors p) : TwoSteps p c r

theorem TwoSteps.exists_behaves {r : Exec Config} (h : c.TwoSteps p r) :
    ∃ t, c.Behaves p 2 t ∧ t.events = [] ∧ t.outcome = .ofStep r := by
  cases h with
  | first h => exact ⟨_, .halted h, rfl, rfl⟩
  | second hd hr =>
    cases r with
    | error e => exact ⟨_, .step hd (.halted hr), rfl, rfl⟩
    | ok d' => exact ⟨_, .step hd (.step hr .running), rfl, rfl⟩

theorem Behaves.twoSteps {t : Trace} (h : c.Behaves p 2 t) :
    t.events = [] ∧ ∃ r, c.TwoSteps p r ∧ t.outcome = .ofStep r := by
  cases h with
  | halted hr => exact ⟨rfl, _, .first hr, rfl⟩
  | step hd ht =>
    cases ht with
    | halted hr => exact ⟨rfl, _, .second hd hr, rfl⟩
    | step hd' ht' =>
      cases ht'
      exact ⟨rfl, _, .second hd hd', rfl⟩

theorem TwoSteps.ends {e : Halt} (h : c.TwoSteps p (.error e)) : c.Ends p (n + 2) e := by
  cases h with
  | first h => exact .halted h
  | second hd hr => exact .step hd (.halted hr)

theorem TwoSteps.ends_of_ok {e : Halt} (h : c.TwoSteps p (.ok d)) (hd : d.Ends p n e) :
    c.Ends p (n + 2) e := by
  cases h with
  | second hd' hr => exact .step hd' (.step hr hd)

/-! ## Pairs -/

/-- The innermost frame is at two neighbouring instructions. -/
structure AtPair (p : Program) (c : Config) (f : Frame) (rest : List Frame) (i j : Instruction) :
    Prop where
  stack : c.stack = f :: rest
  first : ∃ fn, c.fetch p f = .ok (fn, .instruction i)
  second : ∃ fn, c.fetch p { f with pc := f.pc.next } = .ok (fn, .instruction j)

theorem mem_successors_iff {fn : FunctionDef} (hstack : c.stack = f :: rest)
    (hfetch : c.fetch p f = .ok (fn, .instruction i)) (hcall : i.category ≠ .call) {r : Exec Config} :
    r ∈ c.successors p ↔ ∃ x ∈ (i.effect c.memory f.registers).results,
      Except.map (fun x => c.advance f rest i x) x = r := by
  unfold successors
  rw [step_instruction hstack hfetch hcall, Ask.mem_results_map]

/-- The state after both instructions. -/
def advanceBoth (c : Config) (f : Frame) (rest : List Frame) (i j : Instruction) (x y : Effect) :
    Config := (c.advance f rest i x).advance (f.advance i x) rest j y

/-- The innermost frame is at the pair, in either program. -/
theorem atPair_overlay {id : FunctionId} {fn fn' : FunctionDef} {pc : Pc} (hfn : p id = some fn) (hswap : fn.swapAt? pc = some fn')
    (hi : fn.instructionAt? pc = some i) (hj : fn.instructionAt? pc.next = some j)
    (hstack : c.stack = f :: rest) (hid : c.callTable.find? f.callId = some id) (hpc : f.pc = pc) :
    c.AtPair p f rest i j ∧ c.AtPair (p.overlay id fn') f rest j i := by
  subst hpc
  constructor
  · exact ⟨hstack,
      ⟨fn, fetch_eq_ok_iff.2 ⟨id, hid, hfn, FunctionDef.codeAt?_of_instructionAt? hi⟩⟩,
      ⟨fn, fetch_eq_ok_iff.2 ⟨id, hid, hfn, FunctionDef.codeAt?_of_instructionAt? hj⟩⟩⟩
  · exact ⟨hstack, ⟨fn', (fetch_overlay hswap hi hj hid).1 rfl⟩,
      ⟨fn', (fetch_overlay hswap hi hj (f := { f with pc := f.pc.next }) hid).2 rfl⟩⟩

namespace AtPair

/-- Two steps at a pair are the two instructions in their order. -/
theorem twoSteps_iff (h : c.AtPair p f rest i j) (hi : i.category ≠ .call) (hj : j.category ≠ .call)
    (huses : ∀ r, i.def? = some r → r ∉ j.uses) {r : Exec Config} : c.TwoSteps p r ↔
      ∃ r', Ordered (fun m => i.effect m f.registers) (fun m => j.effect m f.registers) c.memory r' ∧
        r = r'.map fun xy => c.advanceBoth f rest i j xy.1 xy.2 := by
  obtain ⟨fn, hfirst⟩ := h.first
  obtain ⟨fn', hsecond⟩ := h.second
  have hc : ∀ {r}, r ∈ c.successors p ↔ _ := mem_successors_iff h.stack hfirst hi
  -- the second instruction finds the registers that it reads as they were
  have heffect : ∀ x m, j.effect m (f.advance i x).registers = j.effect m f.registers := by
    intro x m
    refine Instruction.effect_congr (fun r hr => Frame.find?_advance fun hdef => ?_) m
    exact huses r hdef hr
  have hd : ∀ {x r}, r ∈ (c.advance f rest i x).successors p ↔
      ∃ y ∈ (j.effect x.memory f.registers).results,
        Except.map (fun y => c.advanceBoth f rest i j x y) y = r := by
    intro x r
    have hfetch : (c.advance f rest i x).fetch p (f.advance i x) = .ok (fn', .instruction j) := hsecond
    rw [mem_successors_iff rfl hfetch hj]
    show (∃ y ∈ (j.effect x.memory (f.advance i x).registers).results, _) ↔ _
    rw [heffect]
    rfl
  constructor
  · intro hr
    cases hr with
    | first hr =>
      obtain ⟨x, hx, hxr⟩ := hc.1 hr
      obtain rfl := Exec.map_eq_error_iff.1 hxr
      exact ⟨_, .first hx, rfl⟩
    | second hd' hr =>
      obtain ⟨x, hx, hxr⟩ := hc.1 hd'
      obtain ⟨x, rfl, rfl⟩ := Exec.map_eq_ok_iff.1 hxr
      obtain ⟨y, hy, rfl⟩ := hd.1 hr
      cases y with
      | error e => exact ⟨_, .second hx hy, rfl⟩
      | ok y => exact ⟨_, .both hx hy, rfl⟩
  · rintro ⟨r', hr', rfl⟩
    cases hr' with
    | first hx => exact .first (hc.2 ⟨_, hx, rfl⟩)
    | second hx hy => exact .second (hc.2 ⟨_, hx, rfl⟩) (hd.2 ⟨_, hy, rfl⟩)
    | both hx hy => exact .second (hc.2 ⟨_, hx, rfl⟩) (hd.2 ⟨_, hy, rfl⟩)

/-- What two steps of the exchanged pair lead to, two steps of the pair as it is lead to, up to times, or
they go wrong. -/
theorem exchange (h : c.AtPair p f rest i j) (h' : c.AtPair p' f rest j i) (hij : i.MayExchange j)
    {r : Exec Config} (hr : c.TwoSteps p' r)
    (hover : ∀ r', Ordered (fun m => j.effect m f.registers) (fun m => i.effect m f.registers)
        c.memory r' → r = r'.map (fun yx => c.advanceBoth f rest j i yx.1 yx.2) →
      (∃ ub, Ordered (fun m => i.effect m f.registers) (fun m => j.effect m f.registers) c.memory
        (.error (.goesWrong ub))) ∨
      Matches (fun m => i.effect m f.registers) (fun m => j.effect m f.registers) c.memory r') :
    (∃ ub, c.TwoSteps p (.error (.goesWrong ub))) ∨
      ∃ r', c.TwoSteps p r' ∧ Except.map (erase .times) r' = Except.map (erase .times) r := by
  obtain ⟨hi, hj⟩ := Category.ne_call_of_commutes hij.commutes
  obtain ⟨r', hr', rfl⟩ := (h'.twoSteps_iff hj hi hij.first_uses).1 hr
  have hback : ∀ {s}, Ordered (fun m => i.effect m f.registers) (fun m => j.effect m f.registers)
      c.memory s → c.TwoSteps p (s.map fun xy => c.advanceBoth f rest i j xy.1 xy.2) :=
    fun hs => (h.twoSteps_iff hi hj hij.second_uses).2 ⟨_, hs, rfl⟩
  rcases hover r' hr' rfl with ⟨ub, hub⟩ | hmatch
  · exact .inl ⟨ub, hback hub⟩
  · refine .inr ?_
    cases hmatch with
    | error hs => exact ⟨_, hback hs, rfl⟩
    | @ok x y x' y' hs hx hy hmemory =>
      refine ⟨_, hback hs, congrArg Except.ok ?_⟩
      have hblock : x'.stackBlock = none ∨ y'.stackBlock = none := by
        cases hs with
        | both hx' hy' =>
          by_cases halloca : i.category = .alloca
          · refine .inr (Instruction.stackBlock_eq_none hy' fun hj' => ?_)
            have hcomm := hij.commutes
            rw [halloca, hj'] at hcomm
            exact nomatch hcomm
          · exact .inl (Instruction.stackBlock_eq_none hx' halloca)
      have hframe := Frame.advance_comm (f := f) hij.defs_ne hx hy hblock
      simp only [advanceBoth, advance, erase, hframe, hmemory]

end AtPair

end Config

/-- The small function with its allocation and its addition exchanged. -/
def swappedCell : FunctionDef := (cellFunction.swapAt? .entry).getD default

end PointerSemantics
