import PointerSemantics.Json.State
import PointerSemantics.Proofs.Json.Program

/-!
# States as JSON

A state is read back from its JSON if and only if its numbers have the widths that the document gives
them (`Config.exactOn_form`): 64 bits for addresses, blocks, clocks and calls, 32 bits for registers,
functions, widths of integers and indices of stored pointer bits. With the same for modules, nothing
is lost in either form (`module_config_lossless`).
-/

namespace PointerSemantics

open Form (readRecord readMembers word32 word64 blind_word blind_bool blind_addrSet blind_oneOf
  readRecord_ordered readMembers_ordered read_write_iff read_word32_iff read_word64_iff read_bool
  oneOf_str oneOf_tagged need_cons may_cons)

/-! ## Values -/

theorem BlockId.blind_form : BlockId.form.Blind := blind_word 64

theorem BlockId.exactOn_form {id : BlockId} : BlockId.form.ExactOn id ↔ Word.InBits 64 id :=
  Form.exactOn_word

theorem BlockId.read_nat_iff {id : BlockId} :
    BlockId.form.read (Json.nat id) = some id ↔ Word.InBits 64 id :=
  BlockId.exactOn_form

theorem BlockId.exactOn_option {id : Option BlockId} :
    BlockId.form.option.ExactOn id ↔ ∀ n ∈ id, Word.InBits 64 n :=
  Form.exactOn_option_word

namespace Pointer

def InRange : Pointer → Prop
  | logical block offset => Word.InBits 64 block ∧ Word.InBits 64 offset
  | physical addr visited owner => Word.InBits 64 addr ∧ (∀ a ∈ visited, Word.InBits 64 a) ∧
      ∀ id ∈ owner, Word.InBits 64 id
  | null => True

theorem blind_form : form.Blind :=
  blind_oneOf ⟨readMembers_ordered fun _ _ h => by
      simp only [h.need BlockId.blind_form, word64, h.need (blind_word _)],
    readMembers_ordered fun _ _ h => by
      simp only [word64, h.need (blind_word _), h.need blind_addrSet, h.may BlockId.blind_form]⟩

theorem exactOn_form {p : Pointer} : form.ExactOn p ↔ p.InRange := by
  unfold Form.ExactOn
  cases p <;> simp [form, oneOf_str, oneOf_tagged, List.lookup_cons, InRange, readMembers, need_cons,
    may_cons, Option.bind_eq_some_iff, read_write_iff, read_word64_iff, BlockId.read_nat_iff,
    BlockId.exactOn_option, Form.exactOn_addrSet]

end Pointer

namespace Value

def InRange : Value → Prop
  | num width bits => Word.InBits 32 width ∧ Word.InBits 64 bits
  | ptr p => p.InRange
  | poison => True

theorem blind_form : form.Blind :=
  blind_oneOf ⟨readMembers_ordered fun _ _ h => by
      simp only [word32, word64, h.need (blind_word _)],
    fun k => congrArg (Option.map ptr) (Pointer.blind_form k)⟩

theorem exactOn_form {v : Value} : form.ExactOn v ↔ v.InRange := by
  unfold Form.ExactOn
  cases v <;> simp [form, oneOf_str, oneOf_tagged, List.lookup_cons, InRange, readMembers, need_cons,
    Option.bind_eq_some_iff, read_write_iff, read_word32_iff, read_word64_iff, Pointer.exactOn_form]

end Value

/-! ## Blocks -/

namespace Bit

def InRange : Bit → Prop
  | ptr p index => p.InRange ∧ Word.InBits 32 index
  | val _ | poison => True

theorem blind_form : form.Blind :=
  blind_oneOf ⟨fun k => congrArg (Option.map val) (blind_bool k),
    fun k => congrArg (Option.map _) (Pointer.blind_form.pair (blind_word 32) k)⟩

theorem exactOn_form {b : Bit} : form.ExactOn b ↔ b.InRange := by
  unfold Form.ExactOn
  cases b <;> simp [form, oneOf_str, oneOf_tagged, List.lookup_cons, InRange, read_bool,
    read_write_iff, word32, Form.exactOn_pair, Form.exactOn_word, Pointer.exactOn_form]

end Bit

namespace Byte

def InRange (b : Byte) : Prop := ∀ bit ∈ b.toList, bit.InRange

theorem ofList?_eq_some_iff {bits : List Bit} {b : Byte} : ofList? bits = some b ↔ b.toList = bits := by
  unfold ofList?
  split
  · next h =>
    rw [Option.some.injEq]
    exact ⟨fun hb => by rw [← hb]; rfl, fun hb => ext_toList hb.symm⟩
  · next h =>
    refine ⟨nofun, fun hb => absurd ?_ h⟩
    rw [← hb, length_toList]

theorem blind_form : form.Blind := readRecord_ordered fun _ _ h => by
  simp only [h.need Bit.blind_form.list]

theorem exactOn_form {b : Byte} : form.ExactOn b ↔ b.InRange := by
  unfold Form.ExactOn
  simp [form, InRange, readRecord, need_cons, Option.bind_eq_some_iff, ofList?_eq_some_iff,
    read_write_iff, Form.exactOn_list, Bit.exactOn_form]

end Byte

theorem BlockKind.blind_form : BlockKind.form.Blind := Form.blind_enumeration _ _

theorem BlockKind.exactOn_form (kind : BlockKind) : BlockKind.form.ExactOn kind :=
  Form.exactOn_enumeration (by cases kind <;> decide)

namespace Block

def InRange (b : Block) : Prop :=
  Word.InBits 64 b.id ∧ Word.InBits 64 b.base ∧ Word.InBits 64 b.size ∧ Word.InBits 64 b.born ∧
    (∀ t ∈ b.died, Word.InBits 64 t) ∧ Word.InBits 64 b.align ∧ (∀ c ∈ b.bytes, c.InRange) ∧
    ∀ a ∈ b.candidates, Word.InBits 64 a

theorem blind_form : form.Blind := readRecord_ordered fun _ _ h => by
  simp only [h.need BlockId.blind_form, h.need BlockKind.blind_form, word64, h.need (blind_word _),
    h.may (blind_word _), h.need Byte.blind_form.list, h.need blind_addrSet]

/-- Each member is found where it was written. -/
theorem read_write (b : Block) : form.read (form.write b) = (do
    return ⟨← BlockId.form.read (.nat b.id), ← BlockKind.form.read (BlockKind.form.write b.kind),
      ← word64.read (.nat b.base), ← word64.read (.nat b.size), ← word64.read (.nat b.born),
      ← word64.option.read (word64.option.write b.died), ← word64.read (.nat b.align),
      ← Byte.form.list.read (Byte.form.list.write b.bytes),
      ← Form.addrSet.read (Form.addrSet.write b.candidates)⟩) :=
  rfl

theorem exactOn_form {b : Block} : form.ExactOn b ↔ b.InRange := by
  obtain ⟨id, kind, base, size, born, died, align, bytes, candidates⟩ := b
  have hdied : word64.option.ExactOn died ↔ ∀ t ∈ died, Word.InBits 64 t :=
    Form.exactOn_option_word
  unfold Form.ExactOn
  rw [read_write]
  simp [InRange, Option.bind_eq_some_iff, read_write_iff, hdied, read_word64_iff,
    BlockId.read_nat_iff, BlockKind.exactOn_form, Form.exactOn_list, Byte.exactOn_form,
    Form.exactOn_addrSet]

end Block

/-! ## Memories -/

namespace MemConfig

def InRange (c : MemConfig) : Prop :=
  Word.InBits 64 c.memsz ∧ Word.InBits 64 c.sysalign ∧ Word.InBits 64 c.maxCandidates

theorem blind_form : form.Blind := readRecord_ordered fun _ _ h => by
  simp only [word64, h.need (blind_word _)]

theorem exactOn_form {c : MemConfig} : form.ExactOn c ↔ c.InRange := by
  obtain ⟨memsz, sysalign, maxCandidates⟩ := c
  unfold Form.ExactOn
  simp [form, InRange, readRecord, need_cons, Option.bind_eq_some_iff, read_word64_iff]

end MemConfig

namespace Memory

def InRange (m : Memory) : Prop :=
  (∀ e ∈ m.blocks.entries, Word.InBits 64 e.1 ∧ e.2.InRange) ∧ Word.InBits 64 m.clock ∧
    Word.InBits 64 m.freshId ∧ m.config.InRange

theorem blind_form : form.Blind := readRecord_ordered fun _ _ h => by
  simp only [h.need (Block.blind_form.table 64), word64, h.need (blind_word _),
    h.need BlockId.blind_form, h.need MemConfig.blind_form]

theorem exactOn_form {m : Memory} : form.ExactOn m ↔ m.InRange := by
  obtain ⟨blocks, clock, freshId, config⟩ := m
  unfold Form.ExactOn
  simp [form, formWith, InRange, readRecord, need_cons, Option.bind_eq_some_iff, read_write_iff,
    Form.exactOn_table, Block.exactOn_form, read_word64_iff, BlockId.read_nat_iff,
    MemConfig.exactOn_form]

end Memory

/-! ## Frames and states -/

theorem CallId.blind_form : CallId.form.Blind := blind_word 64

theorem CallId.read_nat_iff {id : CallId} :
    CallId.form.read (Json.nat id) = some id ↔ Word.InBits 64 id :=
  Form.exactOn_word

namespace Frame

def InRange (f : Frame) : Prop :=
  Word.InBits 64 f.callId ∧ f.pc.InRange ∧
    (∀ e ∈ f.registers.entries, Word.InBits 32 e.1 ∧ e.2.InRange) ∧
    (∀ r ∈ f.retDest, Word.InBits 32 r) ∧ ∀ id ∈ f.stackBlocks, Word.InBits 64 id

theorem blind_form : form.Blind := readRecord_ordered fun _ _ h => by
  simp only [h.need CallId.blind_form, h.need Pc.blind_form, h.need (Value.blind_form.table 32),
    h.may Reg.blind_form, h.need BlockId.blind_form.list]

theorem exactOn_form {f : Frame} : form.ExactOn f ↔ f.InRange := by
  obtain ⟨callId, pc, registers, retDest, stackBlocks⟩ := f
  unfold Form.ExactOn
  simp [form, InRange, readRecord, need_cons, may_cons, Option.bind_eq_some_iff, read_write_iff,
    CallId.read_nat_iff, Pc.exactOn_form, Form.exactOn_table, Value.exactOn_form,
    Reg.exactOn_option, Form.exactOn_list, BlockId.exactOn_form]

end Frame

namespace Config

def InRange (c : Config) : Prop :=
  c.memory.InRange ∧ (∀ f ∈ c.stack, f.InRange) ∧
    (∀ e ∈ c.callTable.entries, Word.InBits 64 e.1 ∧ Word.InBits 32 e.2) ∧
    Word.InBits 64 c.nextCallId

theorem blind_form : form.Blind := readRecord_ordered fun _ _ h => by
  simp only [h.need Memory.blind_form, h.need Frame.blind_form.list,
    h.need (FunctionId.blind_form.table 64), h.need CallId.blind_form]

theorem exactOn_form {c : Config} : form.ExactOn c ↔ c.InRange := by
  obtain ⟨memory, stack, callTable, nextCallId⟩ := c
  unfold Form.ExactOn
  simp [form, formWith, InRange, readRecord, need_cons, Option.bind_eq_some_iff, read_write_iff,
    List.reverse_eq_iff, Memory.exactOn_form, Form.exactOn_list, Frame.exactOn_form,
    Form.exactOn_table, FunctionId.exactOn_form, CallId.read_nat_iff]

end Config

/-! ## Nothing is lost -/

/-- The JSON forms of modules and of states lose nothing: if their numbers have the widths of the
document, they are read back from it, and different ones have different documents. -/
theorem module_config_lossless :
    Module.form.Lossless Module.InRange ∧ Config.form.Lossless Config.InRange :=
  ⟨Module.blind_form.lossless Module.exactOn_form, Config.blind_form.lossless Config.exactOn_form⟩

/-- Counts to eight, after an allocation and a call whose result is dropped. -/
def countLoop : FunctionDef where
  name := "count"
  params := [(0, .ptr (.ptr (.int 8)))]
  retTy := .int 64
  blocks :=
    [⟨"entry", [],
      [.alloca 1 (.int 8) (.const (.int 64 8)), .call none 3 [.reg 0, .const .poison]], .br "loop"⟩,
    ⟨"loop", [⟨2, .int 64, [(.const (.int 64 0), "entry"), (.reg 3, "loop")]⟩],
      [.binOp 3 .add (.int 64) (.reg 2) (.const (.int 64 1)),
      .icmp 4 .ult (.int 64) (.reg 3) (.const (.int 64 8))], .condBr (.reg 4) "loop" "exit"⟩,
    ⟨"exit", [], [], .ret (.reg 3)⟩]

def ignoreArgument : FunctionDef := ⟨"ignore", [(5, .ptr (.ptr (.int 8)))], .int 1, []⟩

def countModule : Module := ⟨.ofList [(0, countLoop), (3, ignoreArgument)]⟩

theorem countModule_inRange : countModule.InRange := by
  have hentries : countModule.functions.entries = [(0, countLoop), (3, ignoreArgument)] := rfl
  simp [-Prod.forall, Module.InRange, hentries, FunctionDef.InRange, countLoop, ignoreArgument,
    BasicBlock.InRange, Phi.InRange, Instruction.InRange, Operand.InRange, Constant.InRange,
    Terminator.InRange, Ty.InRange, Word.InBits]

/-- An address that moved through two others, attributed to a block. -/
def movedAddress : Pointer := .physical 40 (.ofList [48, 32]) (some 1)

/-- Concrete bits, poison, and bits of three kinds of pointers. -/
def mixedByte : Byte :=
  ⟨#v[.val true, .val false, .poison, .poison, .ptr movedAddress 4, .ptr movedAddress 5,
    .ptr .null 6, .ptr (.logical 1 0) 7]⟩

/-- Two frames, a live block and a dead one. -/
def mixedState : Config where
  memory.blocks := .ofList
    [(1, ⟨1, .heap, 32, 2, 1, none, 8, [mixedByte, mixedByte], .ofList [64, 128]⟩),
    (2, ⟨2, .stack, 96, 1, 2, some 3, 1, [mixedByte], .empty⟩)]
  memory.clock := 4
  memory.freshId := 3
  memory.config := ⟨256, 8, 16⟩
  stack :=
    [⟨1, .entry, .ofList [(0, .ptr (.logical 1 3)), (10, .num 64 5)], some 2, [2]⟩,
    ⟨0, ⟨1, 2⟩, .ofList [(0, .ptr movedAddress), (1, .poison), (2, .ptr .null)], none, []⟩]
  callTable := .ofList [(0, 0), (1, 3)]
  nextCallId := 2

theorem mixedState_inRange : mixedState.InRange := by
  simp [-Prod.forall, Config.InRange, mixedState, Memory.InRange, Table.ofList, Table.insertMany,
    Table.insert, Table.insertEntry, Table.empty, Block.InRange, Byte.InRange, Byte.toList,
    mixedByte, Bit.InRange, movedAddress, Pointer.InRange, MemConfig.InRange, Frame.InRange,
    Pc.InRange, Pc.entry, Value.InRange, Word.InBits]

/-- Both are read back from documents with their members in another order, and the module is not
written as the empty one is. -/
theorem module_config_read_back :
    Module.form.read (.obj [("functions", .obj [("3", FunctionDef.form.write ignoreArgument),
      ("0", FunctionDef.form.write countLoop)])]) = some countModule ∧
    Config.form.read (.obj [("next_call_id", .nat 2),
      ("call_table", .obj [("1", .nat 3), ("0", .nat 0)]),
      ("stack", Frame.form.list.write mixedState.stack.reverse),
      ("memory", Memory.form.write mixedState.memory)]) = some mixedState ∧
    ¬Json.Same (Module.form.write countModule) (Module.form.write .empty) := by
  obtain ⟨hmodule, hconfig⟩ := module_config_lossless
  refine ⟨(hmodule.read_iff _).2 countModule_inRange _ rfl,
    (hconfig.read_iff _).2 mixedState_inRange _ rfl,
    hmodule.distinct _ _ countModule_inRange ?_ (by decide)⟩
  exact fun _ he => nomatch he

end PointerSemantics
