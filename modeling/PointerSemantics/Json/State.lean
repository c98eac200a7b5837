import PointerSemantics.Json.Program
import PointerSemantics.Choice
import PointerSemantics.State
import PointerSemantics.Trace
import PointerSemantics.Twin

/-!
# JSON forms of values, memories and states

The forms of blocks, memories and configurations take the form of their contents as an argument, so
that one document may spell the bytes of a block out and another abbreviate them.
-/

namespace PointerSemantics

open Form (tagged readRecord readMembers word32 word64)

/-! ## Values -/

def BlockId.form : Form BlockId := word64

def Pointer.form : Form Pointer where
  write
    | .logical block offset =>
      tagged "Logical" (.obj [("block", .nat block), ("offset", .nat offset)])
    | .physical addr visited owner => tagged "Physical" (.obj [("addr", .nat addr),
        ("candidates", Form.addrSet.write visited), ("owner", BlockId.form.option.write owner)])
    | .null => .str "Null"
  read := Form.oneOf [("Null", .null)]
    [("Logical", fun j => do
      let fs ← readMembers j
      return .logical (← BlockId.form.need fs "block") (← word64.need fs "offset")),
    ("Physical", fun j => do
      let fs ← readMembers j
      return .physical (← word64.need fs "addr") (← Form.addrSet.need fs "candidates")
        (← BlockId.form.may fs "owner"))]

def Value.form : Form Value where
  write
    | .num width bits => tagged "Num" (.obj [("width", .nat width), ("bits", .nat bits)])
    | .ptr p => tagged "Ptr" (Pointer.form.write p)
    | .poison => .str "Poison"
  read := Form.oneOf [("Poison", .poison)]
    [("Num", fun j => do
      let fs ← readMembers j
      return .num (← word32.need fs "width") (← word64.need fs "bits")),
    ("Ptr", fun j => (Pointer.form.read j).map .ptr)]

/-! ## Memory -/

def Bit.form : Form Bit where
  write
    | .val b => tagged "Val" (.bool b)
    | .ptr p index => tagged "Ptr" ((Pointer.form.pair word32).write (p, index))
    | .poison => .str "Poison"
  read := Form.oneOf [("Poison", .poison)]
    [("Val", fun j => (Form.bool.read j).map .val),
    ("Ptr", fun j => ((Pointer.form.pair word32).read j).map fun (p, index) => .ptr p index)]

/-- The byte of a list of eight bits. -/
def Byte.ofList? (bits : List Bit) : Option Byte :=
  if h : bits.length = 8 then some ⟨⟨bits.toArray, by simpa using h⟩⟩ else none

def Byte.form : Form Byte where
  write b := .obj [("bits", Bit.form.list.write b.toList)]
  read j := do
    let fs ← readRecord ["bits"] j
    Byte.ofList? (← Bit.form.list.need fs "bits")

def BlockKind.all : List BlockKind := [.stack, .heap]

def BlockKind.name : BlockKind → String
  | stack => "Stack"
  | heap => "Heap"

def BlockKind.form : Form BlockKind := .enumeration all name

/-- Blocks, their bytes being written in a given form. -/
def Block.formWith (bytes : Form (List Byte)) : Form Block where
  write b := .obj [("id", .nat b.id), ("kind", BlockKind.form.write b.kind), ("base", .nat b.base),
    ("size", .nat b.size), ("born", .nat b.born), ("died", word64.option.write b.died),
    ("align", .nat b.align), ("bytes", bytes.write b.bytes),
    ("candidates", Form.addrSet.write b.candidates)]
  read j := do
    let fs ← readRecord
      ["id", "kind", "base", "size", "born", "died", "align", "bytes", "candidates"] j
    return ⟨← BlockId.form.need fs "id", ← BlockKind.form.need fs "kind", ← word64.need fs "base",
      ← word64.need fs "size", ← word64.need fs "born", ← word64.may fs "died",
      ← word64.need fs "align", ← bytes.need fs "bytes", ← Form.addrSet.need fs "candidates"⟩

def Block.form : Form Block := formWith Byte.form.list

def MemConfig.form : Form MemConfig where
  write c := .obj [("memsz", .nat c.memsz), ("sysalign", .nat c.sysalign),
    ("max_candidates", .nat c.maxCandidates)]
  read j := do
    let fs ← readRecord ["memsz", "sysalign", "max_candidates"] j
    return ⟨← word64.need fs "memsz", ← word64.need fs "sysalign",
      ← word64.need fs "max_candidates"⟩

/-- Memories, their blocks being written in a given form. -/
def Memory.formWith (blocks : Form (Table Block)) : Form Memory where
  write m := .obj [("blocks", blocks.write m.blocks), ("clock", .nat m.clock),
    ("fresh_id", .nat m.freshId), ("config", MemConfig.form.write m.config)]
  read j := do
    let fs ← readRecord ["blocks", "clock", "fresh_id", "config"] j
    return ⟨← blocks.need fs "blocks", ← word64.need fs "clock", ← BlockId.form.need fs "fresh_id",
      ← MemConfig.form.need fs "config"⟩

def Memory.form : Form Memory := formWith (Block.form.table 64)

/-! ## States -/

def CallId.form : Form CallId := word64

def Frame.form : Form Frame where
  write f := .obj [("call_id", .nat f.callId), ("pc", Pc.form.write f.pc),
    ("registers", (Value.form.table 32).write f.registers),
    ("ret_dest", Reg.form.option.write f.retDest),
    ("stack_blocks", BlockId.form.list.write f.stackBlocks)]
  read j := do
    let fs ← readRecord ["call_id", "pc", "registers", "ret_dest", "stack_blocks"] j
    return ⟨← CallId.form.need fs "call_id", ← Pc.form.need fs "pc",
      ← (Value.form.table 32).need fs "registers", ← Reg.form.may fs "ret_dest",
      ← BlockId.form.list.need fs "stack_blocks"⟩

/-- States, their memories being written in a given form. The innermost frame is written last. -/
def Config.formWith (memory : Form Memory) : Form Config where
  write c := .obj [("memory", memory.write c.memory),
    ("stack", Frame.form.list.write c.stack.reverse),
    ("call_table", (FunctionId.form.table 64).write c.callTable),
    ("next_call_id", .nat c.nextCallId)]
  read j := do
    let fs ← readRecord ["memory", "stack", "call_table", "next_call_id"] j
    return ⟨← memory.need fs "memory", (← Frame.form.list.need fs "stack").reverse,
      ← (FunctionId.form.table 64).need fs "call_table", ← CallId.form.need fs "next_call_id"⟩

def Config.form : Form Config := formWith Memory.form

/-! ## Choices and events -/

def ChoicePoint.form : Form ChoicePoint where
  write
    | .malloc size candidates => tagged "Malloc" (allocation size candidates)
    | .alloca size candidates => tagged "Alloca" (allocation size candidates)
    | .pointerCompare pred =>
      tagged "PointerCompare" (.obj [("pred", Pred.form.write pred)])
  read := Form.oneOf []
    [("Malloc", fun j => do
      let fs ← readMembers j
      return .malloc (← word64.need fs "size") (← word64.list.need fs "candidates")),
    ("Alloca", fun j => do
      let fs ← readMembers j
      return .alloca (← word64.need fs "size") (← word64.list.need fs "candidates")),
    ("PointerCompare", fun j => do
      let fs ← readMembers j
      return .pointerCompare (← Pred.form.need fs "pred"))]
where
  allocation (size : Nat) (candidates : List Nat) : Json :=
    .obj [("size", .nat size), ("candidates", word64.list.write candidates)]

def Choice.form : Form Choice where
  write
    | .null => .str "Null"
    | .place index => tagged "Place" (.nat index)
    | .compare result => tagged "Compare" (.bool result)
  read := Form.oneOf [("Null", .null)] [("Place", fun j => (word64.read j).map .place),
    ("Compare", fun j => (Form.bool.read j).map .compare)]

def Event.form : Form Event := .enumeration [.silent] fun _ => "Silent"

def AddressPolicy.form : Form AddressPolicy where
  write
    | .first => .str "First"
    | .last => .str "Last"
    | .index i => tagged "Index" (.nat i)
  read := Form.oneOf [("First", .first), ("Last", .last)]
    [("Index", fun j => (word64.read j).map .index)]

end PointerSemantics
