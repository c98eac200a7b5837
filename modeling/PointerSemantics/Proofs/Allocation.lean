import PointerSemantics.Proofs.Action
import PointerSemantics.Proofs.Memory.FirstFit
import PointerSemantics.Proofs.Memory.Requests
import PointerSemantics.Proofs.Reachable

/-!
# Allocation by a program

An instruction that allocates asks where the block goes, offers the lowest slots that are free, and puts
the block at the one that is picked. It runs out of memory only if there is no slot at all
(`Memory.firstFit_and_outOfMemory`); a pick among those offered is never refused, and never moved to
another place (`Memory.adds_of_proposed_and_answer`).

Both rest on `Memory.placement`, the question as memory sees it: the step of an instruction that
allocates is that question, once all but the memory behind it is forgotten.
-/

namespace PointerSemantics

/-! ## What an allocation adds -/

/-- A block that was just made at one of the places it reserves. -/
structure Block.Placed (b : Block) (kind : BlockKind) (size : Nat) (places : List Nat) (base : Nat) :
    Prop where
  alive : b.isAlive = true
  kind_eq : b.kind = kind
  size_eq : b.size = size
  base_eq : b.base = base
  bytes_eq : b.bytes = List.replicate size .poison
  mem_candidates : ∀ a, a ∈ b.candidates ↔ a ∈ places

namespace Memory

variable {m m' : Memory} {kind : BlockKind} {size max pick base : Nat} {places : List Nat}

/-- The second memory has a new block under the next number and is the first one for the rest. -/
structure Adds (m m' : Memory) (kind : BlockKind) (size : Nat) (places : List Nat) (base : Nat) :
    Prop where
  fresh : m.get? m.freshId = none
  placed : ∃ b, m'.get? m.freshId = some b ∧ b.Placed kind size places base
  others : ∀ id, id ≠ m.freshId → m'.get? id = m.get? id

/-- An allocation at a proposed place goes to that place and reserves all that were proposed. -/
theorem Wf.adds_of_proposed (hm : m.Wf) (req : AllocRequest) (hinit : req.init = none)
    (hcandidates : req.candidates = m.proposeCandidates req.size req.align max)
    (h : req.candidates[req.pick]? = some base) :
    ∃ m', m.allocate req = .ok (m.freshId, m') ∧ m.Adds m' req.kind req.size req.candidates base := by
  obtain ⟨hplaces, hallocate⟩ := allocate_proposed req hinit hcandidates h
  refine ⟨_, hallocate, hm.get?_freshId, ⟨m.newBlock req base, ?_, ?_⟩, fun id hid => ?_⟩
  · exact (Table.find?_insert _ _ _ _).trans (if_pos rfl)
  · refine ⟨rfl, rfl, rfl, rfl, ?_, fun a => ?_⟩
    · simp [newBlock, hinit]
    · rw [← hplaces]
      exact AddrSet.mem_ofList
  · exact (Table.find?_insert _ _ _ _).trans (if_neg hid)

/-! ## Running out of memory -/

/-- No place is offered for a block exactly if there is no slot for it. -/
theorem candidatesFor_eq_nil_iff (hvalid : m.config.validate = .ok ()) (hsize : 0 < size) :
    m.candidatesFor (if size < Word.count then some size else none) = [] ↔
      ∀ a, ¬m.Slot size m.config.sysalign a := by
  obtain ⟨-, hmemsz, halign, -, hmax⟩ := MemConfig.validate_eq_ok_iff.1 hvalid
  by_cases hword : size < Word.count
  · rw [if_pos hword]
    have hfirst := firstFit_proposeCandidates hvalid hsize halign m.config.maxCandidates
    constructor
    · intro hnil a ha
      change m.FirstFit _ _ _ _ (m.candidatesFor (some size)) at hfirst
      rw [hnil] at hfirst
      have hlt := hfirst.lt_of_slot (Nat.pos_of_ne_zero hmax) ha
      exact Nat.not_lt_zero _ hlt
    · intro hnone
      cases hcs : m.candidatesFor (some size) with
      | nil => rfl
      | cons a rest =>
        change m.FirstFit _ _ _ _ (m.candidatesFor (some size)) at hfirst
        rw [hcs] at hfirst
        exact absurd (hfirst.isLeast_head rfl).1.1 (hnone a)
  · -- no block of that many bytes fits into the address space
    rw [if_neg hword]
    refine iff_of_true rfl fun a ha => ?_
    have hinside := ha.inside
    have hsmall : maxMemsz < Word.count := by decide
    omega

end Memory

/-! ## The question where a block goes -/

/-- The question where a block goes, with the places offered. -/
def ChoicePoint.allocation : BlockKind → Nat → List Nat → ChoicePoint
  | .heap => .malloc
  | .stack => .alloca

theorem ChoicePoint.allocation_inj {kind kind' : BlockKind} {n n' : Nat} {as as' : List Nat} :
    allocation kind n as = allocation kind' n' as' ↔ kind = kind' ∧ n = n' ∧ as = as' := by
  cases kind <;> cases kind' <;> simp [allocation]

namespace Memory

variable {m m' : Memory} {kind : BlockKind} {size : Option Nat} {n pick base : Nat}

/-- The memory after an answer to the question where a block goes. -/
def answered (m : Memory) (kind : BlockKind) (size : Option Nat) : Choice → Exec Memory
  | .place i => (m.place kind size (m.candidatesFor size) i).map (·.2)
  | .null =>
    match kind with
    | .heap => .ok m
    | .stack => Exec.stuck .invalidChoice
  | .compare _ => Exec.stuck .invalidChoice

/-- The question where a block goes, with the memory after each answer. -/
def placement (m : Memory) (kind : BlockKind) (size : Option Nat) : Ask (Exec Memory) :=
  .ask (.allocation kind (size.getD Word.max) (m.candidatesFor size)) (m.answered kind size)

/-- An answer is refused only where memory is exhausted, or as no answer to the question. -/
theorem answered_error {k : Choice} {h : Halt} (herror : m.answered kind size k = .error h) :
    m.candidatesFor size = [] ∧ h = .outOfMemory ∨ h = .stuck .invalidChoice := by
  have hstuck : ∀ {x : Exec Memory}, x = Exec.stuck .invalidChoice → x = .error h →
      h = .stuck .invalidChoice := by
    rintro _ rfl hx
    exact (Except.error.inj hx).symm
  cases k with
  | null =>
    cases kind with
    | heap => simp [answered] at herror
    | stack => exact .inr (hstuck rfl herror)
  | compare b => exact .inr (hstuck rfl herror)
  | place i =>
    have hplace := Exec.map_eq_error_iff.1 herror
    rcases m.place_cases kind size i with ⟨hnil, h'⟩ | ⟨-, -, h'⟩ | ⟨n, base, rfl, hbase⟩
    · exact .inl ⟨hnil, Except.error.inj (hplace.symm.trans h')⟩
    · exact .inr (Except.error.inj (hplace.symm.trans h'))
    · rw [place_offered kind hbase] at hplace
      simp at hplace

/-- Memory can run out exactly if no place is offered. -/
theorem placement_yields_outOfMemory_iff (m : Memory) (kind : BlockKind) (size : Option Nat) :
    (m.placement kind size).Yields (.error .outOfMemory) ↔ m.candidatesFor size = [] := by
  constructor
  · rintro ⟨k, hk⟩
    rcases answered_error hk with ⟨hnil, -⟩ | hinvalid
    · exact hnil
    · simp at hinvalid
  · intro hnil
    refine ⟨.place 0, ?_⟩
    rcases m.place_cases kind size 0 with ⟨-, h⟩ | ⟨hne, -, -⟩ | ⟨n, base, rfl, hbase⟩
    · exact Exec.map_eq_error_iff.2 h
    · exact absurd hnil hne
    · rw [hnil] at hbase
      simp at hbase

/-- The block goes to the place picked. -/
theorem Wf.adds_of_answered (hm : m.Wf) (hsize : size.getD Word.max = n)
    (h : (m.candidatesFor size)[pick]? = some base) :
    ∃ m', m.answered kind size (.place pick) = .ok m' ∧
      m.Adds m' kind n (m.candidatesFor size) base := by
  cases size with
  | none => simp [candidatesFor] at h
  | some size =>
    obtain rfl : size = n := hsize
    obtain ⟨m', hm', hadds⟩ := hm.adds_of_proposed (m.offer kind size pick) rfl rfl h
    refine ⟨m', ?_, hadds⟩
    show Except.map _ (m.place kind (some size) _ pick) = _
    rw [place_eq_allocate kind h, hm']
    rfl

end Memory

/-! ## Instructions that allocate -/

section Effects

variable {m : Memory} {size : Option Nat}

theorem mallocEffect_memory (h : size ≠ some 0) :
    (mallocEffect m size).map (Except.map Effect.memory) = m.placement .heap size := by
  unfold mallocEffect
  rw [if_neg h]
  refine congrArg (Ask.ask _) (funext fun k => ?_)
  cases k with
  | null => rfl
  | compare b => rfl
  | place i =>
    show Except.map _ (_ >>= _) = Except.map _ _
    cases m.place .heap size (m.candidatesFor size) i <;> rfl

theorem allocaEffect_memory : (allocaEffect m size).map (Except.map Effect.memory) =
    m.placement .stack (size.map (max · 1)) := by
  refine congrArg (Ask.ask _) (funext fun k => ?_)
  cases k with
  | null => rfl
  | compare b => rfl
  | place i =>
    show Except.map _ (_ >>= _) = Except.map _ _
    cases m.place .stack (size.map (max · 1)) (m.candidatesFor (size.map (max · 1))) i <;> rfl

/-- Only an allocation asks where a block goes. -/
theorem Action.act_memory_of_asks {a : Action} {kind : BlockKind} {n : Nat} {places : List Nat}
    (h : (a.act m).point? = some (.allocation kind n places)) :
    ∃ size, (a.act m).map (Except.map Effect.memory) = m.placement kind size := by
  cases a with
  | malloc size =>
    have hsize : size ≠ some 0 := by
      rintro rfl
      simp [act, mallocEffect, Ask.point?] at h
    have hkind : kind = .heap := by
      rw [← Ask.point?_map _ (Except.map Effect.memory)] at h
      rw [act, mallocEffect_memory hsize] at h
      exact (ChoicePoint.allocation_inj.1 (Option.some.inj h)).1.symm
    exact ⟨size, hkind ▸ mallocEffect_memory hsize⟩
  | alloca size =>
    have hkind : kind = .stack := by
      rw [← Ask.point?_map _ (Except.map Effect.memory)] at h
      rw [act, allocaEffect_memory] at h
      exact (ChoicePoint.allocation_inj.1 (Option.some.inj h)).1.symm
    exact ⟨_, hkind ▸ allocaEffect_memory⟩
  | compare pred p q =>
    rw [act_of_isLook rfl, Ask.point?_map, value] at h
    split at h
    · simp [Ask.point?] at h
    · cases kind <;> simp [Ask.point?, ChoicePoint.allocation] at h
  | bind | move | distance | address | cast | load | store | free =>
    simp [act, value, Ask.point?, Ask.map] at h

end Effects

/-- The instruction allocates a block of that many bytes. -/
inductive Instruction.Allocates (regs : Table Value) (n : Nat) : Instruction → BlockKind → Prop
  | malloc {dst ty count w bits} (hcount : count.eval regs = .ok (.num w bits))
      (hn : bits * ty.size = n) : Allocates regs n (.malloc dst ty count) .heap
  | alloca {dst ty count w bits} (hcount : count.eval regs = .ok (.num w bits))
      (hn : bits * ty.size = n) : Allocates regs n (.alloca dst ty count) .stack

theorem allocSize_of_eval {regs : Table Value} {ty : Ty} {count : Operand} {w bits : Nat}
    (hcount : count.eval regs = .ok (.num w bits)) : allocSize regs ty count =
      .ok (if bits * ty.size < Word.count then some (bits * ty.size) else none) := by
  unfold allocSize
  rw [hcount]
  rfl

/-- What an instruction that allocates does once its size is known. -/
def Action.allocation : BlockKind → Option Nat → Action
  | .heap => .malloc
  | .stack => .alloca

/-- A size that is no word is asked for as none. -/
theorem Instruction.Allocates.prepare {regs : Table Value} {n : Nat} {i : Instruction} {kind : BlockKind}
    (h : i.Allocates regs n kind) :
    i.prepare regs = .ok (.allocation kind (if n < Word.count then some n else none)) := by
  cases h with
  | malloc hcount hn =>
    rw [← hn, Instruction.prepare, allocSize_of_eval hcount]
    rfl
  | alloca hcount hn =>
    rw [← hn, Instruction.prepare, allocSize_of_eval hcount]
    rfl

namespace Config

variable {p : Program} {c : Config} {f : Frame} {rest : List Frame} {fn : FunctionDef}
  {i : Instruction} {kind : BlockKind} {n : Nat}

/-- What the step of an instruction does to memory is what its action does. -/
theorem step_memory {a : Action} (hstack : c.stack = f :: rest)
    (hfetch : c.fetch p f = .ok (fn, .instruction i)) (hcall : i.category ≠ .call)
    (ha : i.prepare f.registers = .ok a) :
    (c.step p).map (Except.map Config.memory) = (a.act c.memory).map (Except.map Effect.memory) := by
  rw [step_instruction hstack hfetch hcall, i.effect_eq_act, ha, Ask.map_map]
  refine congrArg (fun g => Ask.map g (a.act c.memory)) (funext fun x => ?_)
  cases x <;> rfl

/-- A step that allocates asks where the block goes. -/
theorem step_memory_of_allocates (hstack : c.stack = f :: rest)
    (hfetch : c.fetch p f = .ok (fn, .instruction i)) (hi : i.Allocates f.registers n kind)
    (hn : 0 < n) : (c.step p).map (Except.map Config.memory) =
      c.memory.placement kind (if n < Word.count then some n else none) := by
  have hprepare := hi.prepare
  cases hi with
  | malloc =>
    rw [step_memory hstack hfetch (by simp [Instruction.category]) hprepare]
    refine mallocEffect_memory fun hzero => ?_
    split at hzero
    · exact Nat.ne_of_gt hn (Option.some.inj hzero)
    · simp at hzero
  | alloca =>
    rw [step_memory hstack hfetch (by simp [Instruction.category]) hprepare]
    refine allocaEffect_memory.trans (congrArg _ ?_)
    -- at least one byte is asked for as it is
    split
    · exact congrArg some (Nat.max_eq_left hn)
    · rfl

/-- Only an instruction whose operands can be read asks. -/
theorem exists_prepare_of_point? {point : ChoicePoint} (h : (c.step p).point? = some point) :
    ∃ f rest fn i a, c.stack = f :: rest ∧ c.fetch p f = .ok (fn, .instruction i) ∧
      i.category ≠ .call ∧ i.prepare f.registers = .ok a := by
  cases hstack : c.stack with
  | nil => simp [step, hstack, Ask.point?] at h
  | cons f rest =>
    cases hfetch : c.fetch p f with
    | error e => simp [step, hstack, hfetch, Ask.after, Ask.point?] at h
    | ok x =>
      obtain ⟨fn, code⟩ := x
      cases code with
      | terminator t => simp [step_terminator hstack hfetch, Ask.point?] at h
      | instruction i =>
        have hcall : i.category ≠ .call := by
          intro hcall
          obtain ⟨dst, callee, args, rfl⟩ := Instruction.exists_eq_call hcall
          simp [step_call hstack hfetch, Ask.point?] at h
        rw [step_instruction hstack hfetch hcall, Ask.point?_map] at h
        cases ha : i.prepare f.registers with
        | error e => simp [i.effect_eq_act, ha, Ask.after, Ask.point?] at h
        | ok a => exact ⟨f, rest, fn, i, a, rfl, hfetch, hcall, ha⟩

/-- A step that asks where a block goes offers the places that memory has for it. -/
theorem step_memory_of_asks {places : List Nat} {answer : Choice → Exec Config}
    (h : c.step p = .ask (.allocation kind n places) answer) :
    ∃ size, size.getD Word.max = n ∧ places = c.memory.candidatesFor size ∧
      ∀ k, (answer k).map Config.memory = c.memory.answered kind size k := by
  have hpoint : (c.step p).point? = some (.allocation kind n places) := by rw [h]; rfl
  obtain ⟨size, hsize⟩ : ∃ size, (c.step p).map (Except.map Config.memory) =
      c.memory.placement kind size := by
    obtain ⟨f, rest, fn, i, a, hstack, hfetch, hcall, ha⟩ := exists_prepare_of_point? hpoint
    have hmemory := step_memory hstack hfetch hcall ha
    rw [← Ask.point?_map _ (Except.map Config.memory), hmemory, Ask.point?_map] at hpoint
    rw [hmemory]
    exact Action.act_memory_of_asks hpoint
  rw [h] at hsize
  obtain ⟨hp, hanswer⟩ := Ask.ask.inj hsize
  obtain ⟨-, hn, hplaces⟩ := ChoicePoint.allocation_inj.1 hp
  exact ⟨size, hn.symm, hplaces, fun k => congrFun hanswer k⟩

end Config

/-! ## The places offered -/

namespace Memory

variable {m : Memory}

/-- In a usable address space the places proposed are the lowest slots, each behind the one before, and
fewer than asked for only if no slot is left. An instruction that allocates a positive number of bytes can
run out of memory exactly if there is no slot for the block. -/
theorem firstFit_and_outOfMemory (hvalid : m.config.validate = .ok ()) :
    (∀ size align max, 0 < size → Word.isPowerOfTwo align = true →
      (m.proposeCandidates size align max).length ≤ max ∧
      (∀ a, (m.proposeCandidates size align max)[0]? = some a →
        IsLeast {x | m.Slot size align x} a) ∧
      (∀ k a b, (m.proposeCandidates size align max)[k]? = some a →
        (m.proposeCandidates size align max)[k + 1]? = some b →
          IsLeast {x | m.Slot size align x ∧ a + size ≤ x} b) ∧
      ((m.proposeCandidates size align max).length < max →
        (m.proposeCandidates size align max = [] → ∀ x, ¬m.Slot size align x) ∧
        ∀ last, (m.proposeCandidates size align max).getLast? = some last →
          ∀ x, ¬(m.Slot size align x ∧ last + size ≤ x))) ∧
    ∀ (p : Program) (c : Config) f rest fn i kind n, c.memory = m → c.stack = f :: rest →
      c.fetch p f = .ok (fn, .instruction i) → i.Allocates f.registers n kind → 0 < n →
        ((c.step p).Yields (.error .outOfMemory) ↔ ∀ a, ¬m.Slot n m.config.sysalign a) := by
  constructor
  · intro size align max hsize halign
    have hfirst := firstFit_proposeCandidates hvalid hsize halign max
    refine ⟨hfirst.length_le, fun a ha => ?_, fun k a b => hfirst.isLeast_succ, fun hlength => ⟨?_, ?_⟩⟩
    · simpa using hfirst.isLeast_head ha
    · intro hnil x hx
      have hlt := hfirst.lt_of_slot hlength hx
      simp [hnil] at hlt
    · rintro last hlast x ⟨hx, hle⟩
      have hlt := hfirst.lt_of_slot hlength hx
      simp only [hlast, Option.map_some, Option.getD_some] at hlt
      exact Nat.not_lt.2 hle hlt
  · rintro p c f rest fn i kind n rfl hstack hfetch hi hn
    rw [← candidatesFor_eq_nil_iff hvalid hn, ← placement_yields_outOfMemory_iff _ kind,
      ← Config.step_memory_of_allocates hstack hfetch hi hn, Ask.yields_map_error_iff]

/-- The memory of 64 bytes with three live blocks and gaps between them. -/
def gaps : Memory := ((empty ⟨64, 8, 2⟩).serveAll mixedRequests).1

/-- A program is about to put a cell of one byte into one of the gaps. -/
def gapsStart : Config := { cellStart 0 with memory := gaps }

/-- Sixteen bytes fit below the first block only, a single byte in more than one place. -/
theorem gaps_firstFit_and_outOfMemory :
    gaps.config.validate = .ok () ∧ gaps.proposeCandidates 16 8 2 = [8] ∧
      (∀ x, ¬(gaps.Slot 16 8 x ∧ 24 ≤ x)) ∧ gaps.proposeCandidates 1 8 2 = [8, 16] ∧
      IsLeast {x | gaps.Slot 1 8 x ∧ 9 ≤ x} 16 ∧
      ¬(gapsStart.step cellProgram).Yields (.error .outOfMemory) := by
  have hvalid : gaps.config.validate = .ok () := by decide +kernel
  obtain ⟨hplaces, hstep⟩ := firstFit_and_outOfMemory hvalid
  have hone : gaps.proposeCandidates 1 8 2 = [8, 16] := by decide +kernel
  have hsixteen : gaps.proposeCandidates 16 8 2 = [8] := by decide +kernel
  obtain ⟨-, hfirst, hnext, -⟩ := hplaces 1 8 2 (by decide) (by decide)
  obtain ⟨-, -, -, hlast⟩ := hplaces 16 8 2 (by decide) (by decide)
  rw [hone] at hfirst hnext
  rw [hsixteen] at hlast
  have hcell := hstep cellProgram gapsStart ⟨0, .entry, Table.ofList [(0, .num 8 5)], none, []⟩ []
    callerFunction _ .stack 1 rfl rfl rfl (.alloca rfl rfl) (by decide)
  refine ⟨hvalid, hsixteen, (hlast (by decide)).2 8 rfl, hone, hnext 0 8 16 rfl rfl, fun hyields => ?_⟩
  exact hcell.1 hyields 8 (hfirst 8 rfl).1

/-- A pick among the places proposed is taken as it is: the new block lies at that place, reserves all
that were proposed and holds poison. So it is with a placement that a step asks for, which goes to the
place advertised under its number. Memory never refuses a placement, whatever the number. -/
theorem adds_of_proposed_and_answer (hm : m.checkInvariants = .ok ()) :
    (∀ kind size align max pick base, (m.proposeCandidates size align max)[pick]? = some base →
      ∃ m', m.allocate ⟨kind, size, align, none, m.proposeCandidates size align max, pick⟩ =
          .ok (m.freshId, m') ∧
        m.Adds m' kind size (m.proposeCandidates size align max) base) ∧
    (∀ kind size pick e, m.place kind size (m.candidatesFor size) pick ≠ .error (.stuck (.memory e))) ∧
    ∀ (p : Program) (c : Config) kind n places answer, c.memory = m →
      c.step p = .ask (.allocation kind n places) answer →
        (∀ pick base, places[pick]? = some base →
          ∃ d, answer (.place pick) = .ok d ∧ m.Adds d.memory kind n places base) ∧
        ∀ k e, answer k ≠ .error (.stuck (.memory e)) := by
  have hwf := checkInvariants_eq_ok_iff.1 hm
  have hanswered : ∀ {kind size k e}, m.answered kind size k ≠ .error (.stuck (.memory e)) := by
    intro kind size k e herror
    rcases answered_error herror with ⟨-, h⟩ | h <;> simp at h
  refine ⟨fun kind size align max pick base h => ?_, fun kind size pick e herror => ?_, ?_⟩
  · exact hwf.adds_of_proposed ⟨kind, size, align, none, _, pick⟩ rfl rfl h
  · exact hanswered (k := .place pick) (Exec.map_eq_error_iff.2 herror)
  · rintro p c kind n places answer rfl hstep
    obtain ⟨size, hn, rfl, hanswer⟩ := Config.step_memory_of_asks hstep
    refine ⟨fun pick base hbase => ?_, fun k e herror => ?_⟩
    · obtain ⟨m', hm', hadds⟩ := hwf.adds_of_answered hn hbase
      obtain ⟨d, hd, rfl⟩ := Exec.map_eq_ok_iff.1 ((hanswer _).trans hm')
      exact ⟨d, hd, hadds⟩
    · exact hanswered ((hanswer k).symm.trans (Exec.map_eq_error_iff.2 herror))

/-- The second of the places advertised for a cell is free, and the cell goes there. -/
theorem gaps_adds_of_proposed_and_answer :
    gaps.checkInvariants = .ok () ∧
      (∃ m', gaps.allocate ⟨.heap, 16, 8, none, gaps.proposeCandidates 16 8 2, 0⟩ = .ok (3, m') ∧
        gaps.Adds m' .heap 16 (gaps.proposeCandidates 16 8 2) 8) ∧
      ∃ answer d, gapsStart.step cellProgram = .ask (.alloca 1 [8, 16]) answer ∧
        answer (.place 1) = .ok d ∧ gaps.Adds d.memory .stack 1 [8, 16] 16 := by
  have hvalid : gaps.checkInvariants = .ok () := by decide +kernel
  obtain ⟨hallocate, -, hstep⟩ := adds_of_proposed_and_answer hvalid
  have hsixteen : gaps.proposeCandidates 16 8 2 = [8] := by decide +kernel
  have hpoint : (gapsStart.step cellProgram).point? = some (.alloca 1 [8, 16]) := by decide +kernel
  refine ⟨hvalid, hallocate .heap 16 8 2 0 8 (by rw [hsixteen]; rfl), ?_⟩
  cases hask : gapsStart.step cellProgram with
  | done x => simp [hask, Ask.point?] at hpoint
  | ask point answer =>
    rw [hask] at hpoint
    obtain rfl := Option.some.inj hpoint
    obtain ⟨d, hd, hadds⟩ := (hstep cellProgram gapsStart .stack 1 [8, 16] answer rfl hask).1 1 16 rfl
    exact ⟨answer, d, rfl, hd, hadds⟩

end Memory

end PointerSemantics
