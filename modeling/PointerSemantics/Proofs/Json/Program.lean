import PointerSemantics.Json.Program
import PointerSemantics.Proofs.Json.Tables

/-!
# Modules as JSON

A module is read back from its JSON if and only if its numbers have the widths that the document
gives them (`Module.exactOn_form`): 32 bits for registers, functions and widths of integers, 64 bits
for the value of a constant.
-/

namespace PointerSemantics

open Form (readTagged readRecord readMembers word32 word64 blind_word blind_string blind_bool blind_oneOf
  readTagged_ordered readRecord_ordered readMembers_ordered
  read_write_iff read_word32_iff read_word64_iff read_string read_bool oneOf_str oneOf_tagged need_cons
  may_cons)

/-! ## Types and operands -/

namespace Ty

/-- All widths have 32 bits. -/
def InRange : Ty → Prop
  | int bits => Word.InBits 32 bits
  | ptr t => t.InRange

theorem readJson_tagged (name : String) (k : Json) : readJson (.obj [(name, k)]) =
    if name = "Int" then (word32.read k).map int
    else if name = "Ptr" then (readJson k).map ptr
    else none := by
  rw [readJson]

theorem readJson_of_not_tagged {j : Json} (h : readTagged j = none) : readJson j = none := by
  unfold readJson
  split
  · cases h
  · rfl

theorem blind_form : form.Blind := by
  intro j
  show readJson j.ordered = readJson j
  fun_induction readJson j with
  | case1 k => exact congrArg (Option.map int) (blind_word 32 k)
  | case2 k _ ih =>
    show readJson (.obj [("Ptr", k.ordered)]) = _
    rw [readJson_tagged, if_neg (by decide), if_pos rfl, ih]
  | case3 name k hint hptr =>
    show readJson (.obj [(name, k.ordered)]) = none
    rw [readJson_tagged, if_neg hint, if_neg hptr]
  | case4 j h =>
    have hnone : readTagged j = none := by
      unfold readTagged
      split
      · exact absurd rfl (h _ _)
      · rfl
    exact readJson_of_not_tagged (by rw [readTagged_ordered, hnone]; rfl)

theorem exactOn_form {t : Ty} : form.ExactOn t ↔ t.InRange := by
  show readJson t.writeJson = some t ↔ t.InRange
  induction t with
  | int bits => simp [writeJson, Form.tagged, readJson_tagged, InRange, read_word32_iff]
  | ptr t ih => simp [writeJson, Form.tagged, readJson_tagged, InRange, ih]

theorem read_writeJson_iff {t : Ty} : form.read t.writeJson = some t ↔ t.InRange := exactOn_form

end Ty

theorem Reg.blind_form : Reg.form.Blind := blind_word 32

theorem Reg.exactOn_form {r : Reg} : Reg.form.ExactOn r ↔ Word.InBits 32 r := Form.exactOn_word

theorem Reg.exactOn_option {r : Option Reg} :
    Reg.form.option.ExactOn r ↔ ∀ n ∈ r, Word.InBits 32 n :=
  Form.exactOn_option_word

theorem FunctionId.blind_form : FunctionId.form.Blind := blind_word 32

theorem FunctionId.exactOn_form {id : FunctionId} : FunctionId.form.ExactOn id ↔ Word.InBits 32 id :=
  Form.exactOn_word

namespace Constant

def InRange : Constant → Prop
  | int width bits => Word.InBits 32 width ∧ Word.InBits 64 bits
  | null | poison => True

theorem blind_form : form.Blind :=
  blind_oneOf <| readMembers_ordered fun _ _ h => by
    simp only [word32, word64, h.need (blind_word _)]

theorem exactOn_form {c : Constant} : form.ExactOn c ↔ c.InRange := by
  unfold Form.ExactOn
  cases c <;> simp [form, oneOf_str, oneOf_tagged, List.lookup_cons, readMembers, need_cons,
    Option.bind_eq_some_iff, InRange, read_word32_iff, read_word64_iff]

end Constant

namespace Operand

def InRange : Operand → Prop
  | reg r => Word.InBits 32 r
  | const c => c.InRange

theorem blind_form : form.Blind :=
  blind_oneOf ⟨fun k => congrArg (Option.map reg) (Reg.blind_form k),
    fun k => congrArg (Option.map const) (Constant.blind_form k)⟩

theorem exactOn_form {o : Operand} : form.ExactOn o ↔ o.InRange := by
  unfold Form.ExactOn
  cases o <;> simp [form, oneOf_tagged, List.lookup_cons, InRange, read_write_iff,
    Reg.exactOn_form, Constant.exactOn_form]

end Operand

/-! ## Names of operators -/

theorem BinOp.blind_form : BinOp.form.Blind := Form.blind_enumeration _ _

theorem BinOp.exactOn_form (op : BinOp) : BinOp.form.ExactOn op :=
  Form.exactOn_enumeration (by cases op <;> decide)

theorem Pred.blind_form : Pred.form.Blind := Form.blind_enumeration _ _

theorem Pred.exactOn_form (p : Pred) : Pred.form.ExactOn p :=
  Form.exactOn_enumeration (by cases p <;> decide)

/-! ## Instructions -/

namespace Instruction

def InRange : Instruction → Prop
  | binOp dst _ ty lhs rhs | icmp dst _ ty lhs rhs | psub dst ty lhs rhs | gep dst _ ty lhs rhs =>
    Word.InBits 32 dst ∧ ty.InRange ∧ lhs.InRange ∧ rhs.InRange
  | select dst cond ty onTrue onFalse =>
    Word.InBits 32 dst ∧ cond.InRange ∧ ty.InRange ∧ onTrue.InRange ∧ onFalse.InRange
  | ptrToInt dst v ty | intToPtr dst v ty => Word.InBits 32 dst ∧ v.InRange ∧ ty.InRange
  | bitcast dst source val target =>
    Word.InBits 32 dst ∧ source.InRange ∧ val.InRange ∧ target.InRange
  | load dst ty v | malloc dst ty v | alloca dst ty v =>
    Word.InBits 32 dst ∧ ty.InRange ∧ v.InRange
  | store ty val ptr => ty.InRange ∧ val.InRange ∧ ptr.InRange
  | free ptr => ptr.InRange
  | call dst callee args =>
    (∀ r ∈ dst, Word.InBits 32 r) ∧ Word.InBits 32 callee ∧ ∀ a ∈ args, a.InRange

theorem read_tagged (name : String) (fs : List (String × Json)) :
    form.read (Form.tagged name (.obj fs)) = ofMembers? name fs := rfl

theorem blind_form : form.Blind := by
  intro j
  simp only [form, readTagged_ordered]
  rcases readTagged j with _ | ⟨name, k⟩
  · rfl
  refine readMembers_ordered (fun fs gs h => ?_) k
  simp only [ofMembers?, h.need Reg.blind_form, h.need Ty.blind_form, h.need Operand.blind_form,
    h.need BinOp.blind_form, h.need Pred.blind_form, h.need blind_bool, h.may Reg.blind_form,
    h.need FunctionId.blind_form, h.need Operand.blind_form.list]

theorem exactOn_form {i : Instruction} : form.ExactOn i ↔ i.InRange := by
  show form.read i.writeJson = some i ↔ i.InRange
  -- all members are looked up first, so that what is left is small when the readers are opened
  cases i <;> simp only [writeJson, read_tagged, ofMembers?, InRange, need_cons, may_cons,
    String.reduceEq, ↓reduceIte, Option.bind_eq_bind, Option.pure_def]
  all_goals simp [Option.bind_eq_some_iff, read_write_iff, read_bool, Reg.exactOn_form,
    Reg.exactOn_option, FunctionId.exactOn_form, Ty.read_writeJson_iff, BinOp.exactOn_form,
    Pred.exactOn_form, Operand.exactOn_form, Form.exactOn_list]

end Instruction

/-! ## Functions and modules -/

namespace Phi

def InRange (p : Phi) : Prop :=
  Word.InBits 32 p.dst ∧ p.ty.InRange ∧ ∀ v ∈ p.incoming, v.1.InRange

theorem blind_form : form.Blind := readRecord_ordered fun _ _ h => by
  simp only [h.need Reg.blind_form, h.need Ty.blind_form,
    h.need (Operand.blind_form.pair blind_string).list]

theorem exactOn_form {p : Phi} : form.ExactOn p ↔ p.InRange := by
  obtain ⟨dst, ty, incoming⟩ := p
  unfold Form.ExactOn
  simp [form, InRange, readRecord, need_cons, Option.bind_eq_some_iff, read_write_iff,
    Reg.exactOn_form, Ty.read_writeJson_iff, Form.exactOn_list, Form.exactOn_pair,
    Operand.exactOn_form, Form.exactOn_string]

end Phi

namespace Terminator

def InRange : Terminator → Prop
  | condBr cond _ _ => cond.InRange
  | ret val => val.InRange
  | br _ | unreachable => True

theorem blind_form : form.Blind :=
  blind_oneOf ⟨fun k => congrArg (Option.map br) (blind_string k),
    readMembers_ordered fun _ _ h => by
      simp only [h.need Operand.blind_form, h.need blind_string],
    fun k => congrArg (Option.map ret) (Operand.blind_form k)⟩

theorem exactOn_form {t : Terminator} : form.ExactOn t ↔ t.InRange := by
  unfold Form.ExactOn
  cases t <;> simp [form, oneOf_str, oneOf_tagged, List.lookup_cons, InRange, readMembers, need_cons,
    Option.bind_eq_some_iff, read_write_iff, read_string, Operand.exactOn_form]

end Terminator

namespace BasicBlock

def InRange (b : BasicBlock) : Prop :=
  (∀ p ∈ b.phis, p.InRange) ∧ (∀ i ∈ b.instructions, i.InRange) ∧ b.terminator.InRange

theorem blind_form : form.Blind := readRecord_ordered fun _ _ h => by
  simp only [h.need blind_string, h.need Phi.blind_form.list, h.need Instruction.blind_form.list,
    h.need Terminator.blind_form]

theorem exactOn_form {b : BasicBlock} : form.ExactOn b ↔ b.InRange := by
  obtain ⟨label, phis, instructions, terminator⟩ := b
  unfold Form.ExactOn
  simp [form, InRange, readRecord, need_cons, Option.bind_eq_some_iff, read_write_iff, read_string,
    Form.exactOn_list, Phi.exactOn_form, Instruction.exactOn_form, Terminator.exactOn_form]

end BasicBlock

namespace FunctionDef

def InRange (fn : FunctionDef) : Prop :=
  (∀ p ∈ fn.params, Word.InBits 32 p.1 ∧ p.2.InRange) ∧ fn.retTy.InRange ∧
    ∀ b ∈ fn.blocks, b.InRange

theorem blind_form : form.Blind := readRecord_ordered fun _ _ h => by
  simp only [h.need blind_string, h.need (Reg.blind_form.pair Ty.blind_form).list,
    h.need Ty.blind_form, h.need BasicBlock.blind_form.list]

theorem exactOn_form {fn : FunctionDef} : form.ExactOn fn ↔ fn.InRange := by
  obtain ⟨name, params, retTy, blocks⟩ := fn
  unfold Form.ExactOn
  simp [form, InRange, readRecord, need_cons, Option.bind_eq_some_iff, read_write_iff, read_string,
    Form.exactOn_list, Form.exactOn_pair, Reg.exactOn_form, Ty.exactOn_form, Ty.read_writeJson_iff,
    BasicBlock.exactOn_form]

end FunctionDef

namespace Module

def InRange (m : Module) : Prop :=
  ∀ e ∈ m.functions.entries, Word.InBits 32 e.1 ∧ e.2.InRange

theorem blind_form : form.Blind := readRecord_ordered fun _ _ h => by
  simp only [h.need (FunctionDef.blind_form.table 32)]

theorem exactOn_form {m : Module} : form.ExactOn m ↔ m.InRange := by
  obtain ⟨functions⟩ := m
  unfold Form.ExactOn
  simp [form, InRange, readRecord, need_cons, Option.bind_eq_some_iff, read_write_iff,
    Form.exactOn_table, FunctionDef.exactOn_form]

end Module

namespace Pc

def InRange (pc : Pc) : Prop := Word.InBits 64 pc.block ∧ Word.InBits 64 pc.inst

theorem blind_form : form.Blind := readRecord_ordered fun _ _ h => by
  simp only [word64, h.need (blind_word _)]

theorem exactOn_form {pc : Pc} : form.ExactOn pc ↔ pc.InRange := by
  obtain ⟨block, inst⟩ := pc
  unfold Form.ExactOn
  simp [form, InRange, readRecord, need_cons, Option.bind_eq_some_iff, read_word64_iff]

end Pc

end PointerSemantics
