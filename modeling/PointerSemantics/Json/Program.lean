import PointerSemantics.Json.Form
import PointerSemantics.Program

/-!
# JSON forms of types, instructions and modules
-/

namespace PointerSemantics

open Form (tagged readTagged readRecord readMembers word32 word64)

/-! ## Types and operands -/

namespace Ty

def writeJson : Ty → Json
  | int bits => tagged "Int" (.nat bits)
  | ptr t => tagged "Ptr" t.writeJson

def readJson : Json → Option Ty
  | .obj [(name, j)] =>
    if name = "Int" then (word32.read j).map int
    else if name = "Ptr" then (readJson j).map ptr
    else none
  | _ => none

def form : Form Ty := ⟨writeJson, readJson⟩

end Ty

def Reg.form : Form Reg := word32

def FunctionId.form : Form FunctionId := word32

def Constant.form : Form Constant where
  write
    | .int width bits => tagged "Int" (.obj [("width", .nat width), ("bits", .nat bits)])
    | .null => .str "Null"
    | .poison => .str "Poison"
  read := Form.oneOf [("Null", .null), ("Poison", .poison)]
    [("Int", fun j => do
      let fs ← readMembers j
      return .int (← word32.need fs "width") (← word64.need fs "bits"))]

def Operand.form : Form Operand where
  write
    | .reg r => tagged "Reg" (Reg.form.write r)
    | .const c => tagged "Const" (Constant.form.write c)
  read := Form.oneOf [] [("Reg", fun j => (Reg.form.read j).map .reg),
    ("Const", fun j => (Constant.form.read j).map .const)]

/-! ## Names of operators and categories -/

def BinOp.all : List BinOp :=
  [.add, .sub, .mul, .udiv, .sdiv, .urem, .srem, .and, .or, .xor, .shl, .lshr, .ashr]

def BinOp.name : BinOp → String
  | add => "Add"
  | sub => "Sub"
  | mul => "Mul"
  | udiv => "UDiv"
  | sdiv => "SDiv"
  | urem => "URem"
  | srem => "SRem"
  | and => "And"
  | or => "Or"
  | xor => "Xor"
  | shl => "Shl"
  | lshr => "LShr"
  | ashr => "AShr"

def BinOp.form : Form BinOp := .enumeration all name

def Pred.all : List Pred := [.eq, .ne, .ult, .ule, .ugt, .uge, .slt, .sle, .sgt, .sge]

def Pred.name : Pred → String
  | eq => "Eq"
  | ne => "Ne"
  | ult => "Ult"
  | ule => "Ule"
  | ugt => "Ugt"
  | uge => "Uge"
  | slt => "Slt"
  | sle => "Sle"
  | sgt => "Sgt"
  | sge => "Sge"

def Pred.form : Form Pred := .enumeration all name

def Category.form : Form Category := .enumeration all name

/-! ## Instructions -/

namespace Instruction

def writeJson : Instruction → Json
  | binOp dst op ty lhs rhs => tagged "BinOp" (.obj [("dst", Reg.form.write dst),
      ("op", BinOp.form.write op), ("ty", ty.writeJson), ("lhs", Operand.form.write lhs),
      ("rhs", Operand.form.write rhs)])
  | icmp dst pred ty lhs rhs => tagged "ICmp" (.obj [("dst", Reg.form.write dst),
      ("pred", Pred.form.write pred), ("ty", ty.writeJson), ("lhs", Operand.form.write lhs),
      ("rhs", Operand.form.write rhs)])
  | select dst cond ty onTrue onFalse => tagged "Select" (.obj [("dst", Reg.form.write dst),
      ("cond", Operand.form.write cond), ("ty", ty.writeJson),
      ("on_true", Operand.form.write onTrue), ("on_false", Operand.form.write onFalse)])
  | gep dst inbounds ty ptr idx => tagged "Gep" (.obj [("dst", Reg.form.write dst),
      ("inbounds", .bool inbounds), ("ty", ty.writeJson), ("ptr", Operand.form.write ptr),
      ("idx", Operand.form.write idx)])
  | psub dst ty lhs rhs => tagged "Psub" (.obj [("dst", Reg.form.write dst), ("ty", ty.writeJson),
      ("lhs", Operand.form.write lhs), ("rhs", Operand.form.write rhs)])
  | ptrToInt dst ptr ty => tagged "PtrToInt" (.obj [("dst", Reg.form.write dst),
      ("ptr", Operand.form.write ptr), ("ty", ty.writeJson)])
  | intToPtr dst val ty => tagged "IntToPtr" (.obj [("dst", Reg.form.write dst),
      ("val", Operand.form.write val), ("ty", ty.writeJson)])
  | bitcast dst source val target => tagged "Bitcast" (.obj [("dst", Reg.form.write dst),
      ("from", source.writeJson), ("val", Operand.form.write val), ("to", target.writeJson)])
  | load dst ty ptr => tagged "Load" (.obj [("dst", Reg.form.write dst), ("ty", ty.writeJson),
      ("ptr", Operand.form.write ptr)])
  | store ty val ptr => tagged "Store" (.obj [("ty", ty.writeJson),
      ("val", Operand.form.write val), ("ptr", Operand.form.write ptr)])
  | malloc dst ty count => tagged "Malloc" (.obj [("dst", Reg.form.write dst),
      ("ty", ty.writeJson), ("count", Operand.form.write count)])
  | alloca dst ty count => tagged "Alloca" (.obj [("dst", Reg.form.write dst),
      ("ty", ty.writeJson), ("count", Operand.form.write count)])
  | free ptr => tagged "Free" (.obj [("ptr", Operand.form.write ptr)])
  | call dst callee args => tagged "Call" (.obj [("dst", Reg.form.option.write dst),
      ("callee", FunctionId.form.write callee), ("args", Operand.form.list.write args)])

/-- The instruction of a constructor's name and members. -/
def ofMembers? (name : String) (fs : List (String × Json)) : Option Instruction :=
  let dst := Reg.form.need fs "dst"
  let ty := Ty.form.need fs "ty"
  let operand := Operand.form.need fs
  match name with
  | "BinOp" => do
    return binOp (← dst) (← BinOp.form.need fs "op") (← ty) (← operand "lhs") (← operand "rhs")
  | "ICmp" => do
    return icmp (← dst) (← Pred.form.need fs "pred") (← ty) (← operand "lhs") (← operand "rhs")
  | "Select" => do
    return select (← dst) (← operand "cond") (← ty) (← operand "on_true") (← operand "on_false")
  | "Gep" => do
    return gep (← dst) (← Form.bool.need fs "inbounds") (← ty) (← operand "ptr") (← operand "idx")
  | "Psub" => do return psub (← dst) (← ty) (← operand "lhs") (← operand "rhs")
  | "PtrToInt" => do return ptrToInt (← dst) (← operand "ptr") (← ty)
  | "IntToPtr" => do return intToPtr (← dst) (← operand "val") (← ty)
  | "Bitcast" => do
    return bitcast (← dst) (← Ty.form.need fs "from") (← operand "val") (← Ty.form.need fs "to")
  | "Load" => do return load (← dst) (← ty) (← operand "ptr")
  | "Store" => do return store (← ty) (← operand "val") (← operand "ptr")
  | "Malloc" => do return malloc (← dst) (← ty) (← operand "count")
  | "Alloca" => do return alloca (← dst) (← ty) (← operand "count")
  | "Free" => do return free (← operand "ptr")
  | "Call" => do
    return call (← Reg.form.may fs "dst") (← FunctionId.form.need fs "callee")
      (← Operand.form.list.need fs "args")
  | _ => none

def form : Form Instruction where
  write := writeJson
  read j := do
    let (name, j) ← readTagged j
    ofMembers? name (← readMembers j)

end Instruction

/-! ## Functions and modules -/

def Phi.form : Form Phi where
  write p := .obj [("dst", Reg.form.write p.dst), ("ty", p.ty.writeJson),
    ("incoming", (Operand.form.pair .string).list.write p.incoming)]
  read j := do
    let fs ← readRecord ["dst", "ty", "incoming"] j
    return ⟨← Reg.form.need fs "dst", ← Ty.form.need fs "ty",
      ← (Operand.form.pair .string).list.need fs "incoming"⟩

def Terminator.form : Form Terminator where
  write
    | .br label => tagged "Br" (.str label)
    | .condBr cond onTrue onFalse => tagged "CondBr" (.obj [("cond", Operand.form.write cond),
        ("on_true", .str onTrue), ("on_false", .str onFalse)])
    | .ret val => tagged "Ret" (Operand.form.write val)
    | .unreachable => .str "Unreachable"
  read := Form.oneOf [("Unreachable", .unreachable)]
    [("Br", fun j => (Form.string.read j).map .br),
    ("CondBr", fun j => do
      let fs ← readMembers j
      return .condBr (← Operand.form.need fs "cond") (← Form.string.need fs "on_true")
        (← Form.string.need fs "on_false")),
    ("Ret", fun j => (Operand.form.read j).map .ret)]

def BasicBlock.form : Form BasicBlock where
  write b := .obj [("label", .str b.label), ("phis", Phi.form.list.write b.phis),
    ("instructions", Instruction.form.list.write b.instructions),
    ("terminator", Terminator.form.write b.terminator)]
  read j := do
    let fs ← readRecord ["label", "phis", "instructions", "terminator"] j
    return ⟨← Form.string.need fs "label", ← Phi.form.list.need fs "phis",
      ← Instruction.form.list.need fs "instructions", ← Terminator.form.need fs "terminator"⟩

def FunctionDef.form : Form FunctionDef where
  write f := .obj [("name", .str f.name), ("params", (Reg.form.pair Ty.form).list.write f.params),
    ("ret_ty", f.retTy.writeJson), ("blocks", BasicBlock.form.list.write f.blocks)]
  read j := do
    let fs ← readRecord ["name", "params", "ret_ty", "blocks"] j
    return ⟨← Form.string.need fs "name", ← (Reg.form.pair Ty.form).list.need fs "params",
      ← Ty.form.need fs "ret_ty", ← BasicBlock.form.list.need fs "blocks"⟩

def Module.form : Form Module where
  write m := .obj [("functions", (FunctionDef.form.table 32).write m.functions)]
  read j := do
    let fs ← readRecord ["functions"] j
    return ⟨← (FunctionDef.form.table 32).need fs "functions"⟩

def Pc.form : Form Pc where
  write pc := .obj [("block", .nat pc.block), ("inst", .nat pc.inst)]
  read j := do
    let fs ← readRecord ["block", "inst"] j
    return ⟨← word64.need fs "block", ← word64.need fs "inst"⟩

end PointerSemantics
