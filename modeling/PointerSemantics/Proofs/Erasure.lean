import PointerSemantics.Proofs.Action
import PointerSemantics.Proofs.Memory.Erasure
import PointerSemantics.Step

/-!
# Steps on erased states

A step of an erased state is, erased, a step of the state itself: it asks the same question, and every
answer leads to the same end or to states that are equal once erased (`Config.step_erase`). For times
this holds always. For bases it holds where the instruction is blind to addresses and no register of the
frame holds a bare address.
-/

namespace PointerSemantics

/-! ## Blindness to addresses -/

/-- The pointer is a bare address. -/
def Pointer.isPhysical : Pointer → Bool
  | physical .. => true
  | _ => false

/-- The value is a bare address. -/
def Value.isAddress : Value → Bool
  | ptr p => p.isPhysical
  | _ => false

/-- The instruction neither turns pointers into numbers or back, nor makes bare addresses of pointers
or of bytes. -/
def Instruction.isBlind : Instruction → Bool
  | gep _ inbounds .. => inbounds
  | load _ ty _ => ty.isInt
  | psub .. | ptrToInt .. | intToPtr .. => false
  | _ => true

/-- No register holds a bare address. -/
def NoAddress (regs : Table Value) : Prop := ∀ r v, regs.find? r = some v → v.isAddress = false

/-- What is forgotten does not matter to an instruction. -/
def Erasure.Hides (e : Erasure) (regs : Table Value) (i : Instruction) : Prop :=
  e.KeepsBases ∨ i.isBlind = true ∧ NoAddress regs

theorem NoAddress.eval {regs : Table Value} (h : NoAddress regs) {op : Operand} {v : Value}
    (hv : op.eval regs = .ok v) : v.isAddress = false :=
  Operand.forall_eval h (fun _ _ => rfl) rfl rfl hv

/-! ## Pointers -/

namespace Memory

variable {m : Memory} {e : Erasure} {p q : Pointer}

theorem liveBlockContaining?_erase (he : e.KeepsBases) {addr len : Nat} :
    (m.erase e).liveBlockContaining? addr len = m.liveBlockContaining? addr len := by
  unfold liveBlockContaining?
  rw [liveBlocks_erase, List.find?_map, Option.map_map]
  have hrange : ((fun b : Block => b.range.contains addr (max len 1)) ∘ Block.erase e) =
      fun b => b.range.contains addr (max len 1) := by
    funext b
    show (b.erase e).range.contains addr (max len 1) = _
    rw [Block.range_erase he]
  rw [hrange]
  rfl

theorem addressOf?_erase (he : e.KeepsBases) {id : BlockId} {offset : Nat} :
    (m.erase e).addressOf? id offset = m.addressOf? id offset := by
  unfold addressOf?
  rw [get?_erase, Option.map_map]
  congr 1
  funext b
  show (e.base b.base + offset) % Word.count % m.config.memsz = _
  rw [he]

theorem address_erase (he : e.KeepsBases) : (m.erase e).address p = m.address p := by
  cases p with
  | null => rfl
  | physical addr visited owner => rfl
  | logical id offset =>
    unfold address
    dsimp only
    rw [addressOf?_erase he]

theorem liveAddress?_erase (he : e.KeepsBases) {id : BlockId} {offset : Nat} :
    (m.erase e).liveAddress? id offset = m.liveAddress? id offset := by
  unfold liveAddress?
  rw [addressOf?_erase he]
  simp only [get?_erase, Option.any_map, Block.isAlive_erase]

theorem liveInBounds_erase {id : BlockId} {offset : Nat} :
    (m.erase e).liveInBounds id offset = m.liveInBounds id offset := by
  unfold liveInBounds
  simp only [get?_erase, Option.any_map, Block.isAlive_erase, Block.inBounds_erase]

/-- Logical pointers compare by the liveness and the sizes of their blocks only. -/
theorem ptrEq?_erase (h : e.KeepsBases ∨ p.isPhysical = false ∧ q.isPhysical = false) :
    (m.erase e).ptrEq? p q = m.ptrEq? p q := by
  cases p <;> cases q <;> simp only [ptrEq?, liveInBounds_erase]
  case logical.physical => rw [liveAddress?_erase (h.resolve_right (by simp [Pointer.isPhysical]))]
  case physical.logical => rw [liveAddress?_erase (h.resolve_right (by simp [Pointer.isPhysical]))]

theorem ptrLe?_erase (h : e.KeepsBases ∨ p.isPhysical = false ∧ q.isPhysical = false) :
    (m.erase e).ptrLe? p q = m.ptrLe? p q := by
  cases p <;> cases q <;> simp only [ptrLe?, liveInBounds_erase]
  case logical.physical => rw [liveAddress?_erase (h.resolve_right (by simp [Pointer.isPhysical]))]
  case physical.logical => rw [liveAddress?_erase (h.resolve_right (by simp [Pointer.isPhysical]))]

theorem ptrHolds?_erase {pred : Pred}
    (h : e.KeepsBases ∨ p.isPhysical = false ∧ q.isPhysical = false) :
    (m.erase e).ptrHolds? pred p q = m.ptrHolds? pred p q := by
  have h' : e.KeepsBases ∨ q.isPhysical = false ∧ p.isPhysical = false := h.imp_right And.symm
  cases pred <;> simp only [ptrHolds?, ptrEq?_erase h, ptrLe?_erase h, ptrLe?_erase h']

theorem movePointer_erase {delta : Int} {inbounds : Bool} :
    (m.erase e).movePointer p delta inbounds = m.movePointer p delta inbounds := by
  cases p with
  | null => rfl
  | physical addr visited owner => rfl
  | logical id offset =>
    unfold movePointer
    dsimp only
    rw [get?_erase]
    cases m.get? id <;> rfl

theorem pointerDistance_erase (he : e.KeepsBases) {size : Nat} :
    (m.erase e).pointerDistance p q size = m.pointerDistance p q size := by
  unfold pointerDistance
  rw [address_erase he, address_erase he]

theorem pointerOfInt_erase (he : e.KeepsBases) {n : Nat} :
    (m.erase e).pointerOfInt n = m.pointerOfInt n := by
  unfold pointerOfInt
  dsimp only
  rw [liveBlockContaining?_erase he]
  rfl

theorem resolve_erase (h : e.KeepsBases ∨ p.isPhysical = false) {len : Nat} :
    (m.erase e).resolve p len = m.resolve p len := by
  cases p with
  | null => rfl
  | logical id offset =>
    unfold resolve
    dsimp only
    rw [get?_erase]
    cases m.get? id with
    | none => rfl
    | some b =>
      simp only [Option.map_some, Block.isAlive_erase, Block.accessInBounds_erase]
      rfl
  | physical addr visited owner =>
    have he : e.KeepsBases := h.resolve_right (by simp [Pointer.isPhysical])
    unfold resolve
    dsimp only
    rw [liveBlockContaining?_erase he]
    cases m.liveBlockContaining? addr len with
    | none => rfl
    | some id =>
      dsimp only
      rw [get?_erase]
      cases m.get? id with
      | none => rfl
      | some b => simp only [Option.map_some, Block.erase, he b.base]

theorem freePointer_erase :
    ((m.erase e).freePointer p).map (erase e) = (m.freePointer p).map (erase e) := by
  have hfree : ∀ id, (Exec.ofMemory ((m.erase e).free id)).map (erase e) =
      (Exec.ofMemory (m.free id)).map (erase e) := by
    intro id
    rw [Exec.map_ofMemory, Exec.map_ofMemory, free_erase]
  cases p with
  | null => rfl
  | physical addr visited owner => rfl
  | logical id offset =>
    unfold freePointer
    dsimp only
    rw [get?_erase]
    cases m.get? id with
    | none => rfl
    | some b =>
      simp only [Option.map_some, Block.isAlive_erase]
      by_cases halive : (!b.isAlive) = true
      · simp only [halive, if_true]
      by_cases hoffset : offset = 0
      · by_cases hkind : b.kind = .stack
        · simp [hkind, halive, hoffset]
        · simp [hkind, halive, hoffset, hfree id]
      · simp [halive, hoffset]

theorem fetchValue_erase (h : e.KeepsBases ∨ p.isPhysical = false) {ty : Ty} :
    (m.erase e).fetchValue ty p = m.fetchValue ty p := by
  unfold fetchValue
  rw [resolve_erase h]
  simp only [read_erase, loaded_congr (config_erase (m := m) (e := e))]

theorem storeValue_erase (h : e.KeepsBases ∨ p.isPhysical = false) {ty : Ty} {v : Value} :
    ((m.erase e).storeValue ty v p).map (erase e) = (m.storeValue ty v p).map (erase e) := by
  unfold storeValue
  rw [resolve_erase h]
  refine Exec.map_bind_congr_right fun target _ => ?_
  rw [Exec.map_ofMemory, Exec.map_ofMemory, write_erase]
  cases m.write target.1 target.2 (v.encode ty) with
  | error k => rfl
  | ok m' => exact congrArg (fun x => Exec.ofMemory (Except.ok x)) erase_erase

end Memory

/-! ## Actions -/

section Actions

variable {m : Memory} {regs : Table Value} {e : Erasure} {a : Action}

/-- The action does not turn pointers into numbers or back. -/
def Action.isBlind : Action → Bool
  | distance .. | address .. | cast _ => false
  | _ => true

/-- What is forgotten does not matter to an action. -/
def Action.Hidden (e : Erasure) (a : Action) : Prop :=
  e.KeepsBases ∨ a.isBlind = true ∧ ∀ p ∈ a.pointers, p.isPhysical = false

/-- What does not matter to an instruction does not matter to the action it comes down to. -/
theorem Erasure.Hides.action {i : Instruction} (h : e.Hides regs i) (ha : i.Prepares regs a) :
    a.Hidden e := by
  refine h.imp_right fun ⟨hblind, hregs⟩ => ?_
  have hop : ∀ {op : Operand} {p : Pointer}, op.eval regs = .ok (.ptr p) → p.isPhysical = false :=
    fun hp => hregs.eval hp
  cases ha with
  | bind | malloc | alloca => exact ⟨rfl, nofun⟩
  | distance | address | cast => exact nomatch hblind
  | move hp | load hp | free hp => exact ⟨rfl, List.forall_mem_singleton.2 (hop hp)⟩
  | store _ hp => exact ⟨rfl, List.forall_mem_singleton.2 (hop hp)⟩
  | compare _ hp hq =>
    exact ⟨rfl, List.forall_mem_cons.2 ⟨hop hp, List.forall_mem_singleton.2 (hop hq)⟩⟩

theorem Action.Hidden.keepsBases (h : a.Hidden e) (ha : a.isBlind = false) : e.KeepsBases :=
  h.resolve_right fun hb => by simp [ha] at hb

/-- A pointer that an action works with is no bare address if bases are forgotten. -/
theorem Action.Hidden.isPhysical (h : a.Hidden e) {p : Pointer} (hp : p ∈ a.pointers) :
    e.KeepsBases ∨ p.isPhysical = false := h.imp_right fun hb => hb.2 p hp

def Effect.erase (e : Erasure) (x : Effect) : Effect := { x with memory := x.memory.erase e }

theorem Effect.erase_binding {v : Value} :
    (Effect.binding (m.erase e) v).erase e = (Effect.binding m v).erase e := by
  unfold Effect.erase Effect.binding
  rw [Memory.erase_erase]

theorem Effect.map_erase_change (x : Exec Memory) :
    (x.map Effect.change).map (Effect.erase e) = (x.map (Memory.erase e)).map Effect.change := by
  cases x <;> rfl

theorem Memory.place_erase {kind : BlockKind} {size : Option Nat} {candidates : List Nat}
    {pick : Nat} : ((m.erase e).place kind size candidates pick).map (fun x => (x.1, x.2.erase e)) =
      (m.place kind size candidates pick).map fun x => (x.1, x.2.erase e) := by
  unfold place
  split
  · rfl
  · rfl
  · split
    · rfl
    · rw [Exec.map_ofMemory, Exec.map_ofMemory]
      exact congrArg Exec.ofMemory allocate_erase

theorem mallocEffect_erase {size : Option Nat} :
    (mallocEffect (m.erase e) size).map (Except.map (Effect.erase e)) =
      (mallocEffect m size).map (Except.map (Effect.erase e)) := by
  unfold mallocEffect
  split
  · exact congrArg (fun x => Ask.done (Except.ok x)) Effect.erase_binding
  · rw [Memory.candidatesFor_erase]
    refine congrArg (Ask.ask _) (funext fun c => ?_)
    cases c with
    | null => exact congrArg Except.ok Effect.erase_binding
    | compare b => rfl
    | place i =>
      refine Exec.map_bind_congr Memory.place_erase fun x y hxy => ?_
      obtain ⟨hid, hmemory⟩ := Prod.mk.inj hxy
      exact congrArg Except.ok (by simp only [Effect.erase, Effect.binding, hid, hmemory])

theorem allocaEffect_erase {size : Option Nat} :
    (allocaEffect (m.erase e) size).map (Except.map (Effect.erase e)) =
      (allocaEffect m size).map (Except.map (Effect.erase e)) := by
  unfold allocaEffect
  simp only [Memory.candidatesFor_erase]
  refine congrArg (Ask.ask _) (funext fun c => ?_)
  cases c with
  | null => rfl
  | compare b => rfl
  | place i =>
    refine Exec.map_bind_congr Memory.place_erase fun x y hxy => ?_
    obtain ⟨hid, hmemory⟩ := Prod.mk.inj hxy
    exact congrArg Except.ok (by simp only [Effect.erase, hid, hmemory])

namespace Action

theorem value_erase (h : a.Hidden e) : a.value (m.erase e) = a.value m := by
  cases a with
  | bind | store | malloc | alloca | free => rfl
  | move => simp only [value, Memory.movePointer_erase]
  | distance => simp only [value, Memory.pointerDistance_erase (h.keepsBases rfl)]
  | address => simp only [value, Memory.address_erase (h.keepsBases rfl)]
  | cast => simp only [value, Memory.pointerOfInt_erase (h.keepsBases rfl)]
  | compare pred p q =>
    have hpq : e.KeepsBases ∨ p.isPhysical = false ∧ q.isPhysical = false := by
      refine h.imp_right fun hb => ⟨hb.2 p List.mem_cons_self, hb.2 q ?_⟩
      exact List.mem_cons_of_mem _ List.mem_cons_self
    simp only [value, Memory.ptrHolds?_erase hpq]
  | load ty p => simp only [value, Memory.fetchValue_erase (h.isPhysical List.mem_cons_self)]

/-- What an action does to erased memory is, erased, what it does to memory, for each answer. -/
theorem act_erase (h : a.Hidden e) :
    (a.act (m.erase e)).map (Except.map (Effect.erase e)) =
      (a.act m).map (Except.map (Effect.erase e)) := by
  by_cases hlook : a.isLook = true
  · rw [act_of_isLook hlook, act_of_isLook hlook, value_erase h, Ask.map_map, Ask.map_map]
    refine congrArg (Ask.map · (a.value m)) (funext fun v => ?_)
    cases v with
    | error k => rfl
    | ok v => exact congrArg Except.ok Effect.erase_binding
  cases a with
  | store ty v p =>
    refine congrArg Ask.done ?_
    rw [Effect.map_erase_change, Memory.storeValue_erase (h.isPhysical List.mem_cons_self),
      Effect.map_erase_change]
  | free p =>
    refine congrArg Ask.done ?_
    rw [Effect.map_erase_change, Memory.freePointer_erase, Effect.map_erase_change]
  | malloc size => exact mallocEffect_erase
  | alloca size => exact allocaEffect_erase
  | bind | move | distance | address | cast | compare | load => exact absurd rfl hlook

end Action

/-- What an instruction does to erased memory is, erased, what it does to memory, for each answer. -/
theorem Instruction.effect_erase {i : Instruction} (h : e.Hides regs i) :
    (i.effect (m.erase e) regs).map (Except.map (Effect.erase e)) =
      (i.effect m regs).map (Except.map (Effect.erase e)) := by
  rw [effect_eq_act, effect_eq_act, Ask.map_after, Ask.map_after]
  refine Ask.after_congr fun a ha => ?_
  exact Action.act_erase (h.action (prepares_of_prepare ha))

end Actions

/-! ## States -/

theorem Memory.free_congr {m m' : Memory} {e : Erasure} (h : m.erase e = m'.erase e) (id : BlockId) :
    (m.free id).map (Memory.erase e) = (m'.free id).map (Memory.erase e) := by
  rw [← free_erase, h, free_erase]

theorem Memory.freeAll_congr {m m' : Memory} {e : Erasure} (h : m.erase e = m'.erase e)
    (ids : List BlockId) : (ids.foldlM Memory.free m).map (Memory.erase e) =
      (ids.foldlM Memory.free m').map (Memory.erase e) := by
  induction ids generalizing m m' with
  | nil => exact congrArg Except.ok h
  | cons id ids ih =>
    have hfree := free_congr h id
    rw [List.foldlM_cons, List.foldlM_cons]
    cases hm : m.free id <;> cases hm' : m'.free id <;> rw [hm, hm'] at hfree <;>
      simp only [Except.map, reduceCtorEq, Except.error.injEq, Except.ok.injEq] at hfree
    · rw [hfree]
    · exact ih hfree

namespace Config

variable {p : Program} {c d : Config} {e : Erasure} {f : Frame} {rest : List Frame}

def erase (e : Erasure) (c : Config) : Config := { c with memory := c.memory.erase e }

/-- What is forgotten does not matter to the instruction the state is at. -/
def Hides (p : Program) (e : Erasure) (c : Config) : Prop := ∀ f rest fn i,
  c.stack = f :: rest → c.fetch p f = .ok (fn, .instruction i) → e.Hides f.registers i

theorem hides_of_keepsBases (he : e.KeepsBases) : c.Hides p e := fun _ _ _ _ _ _ => .inl he

theorem advance_erase {i : Instruction} {x : Effect} :
    ((c.erase e).advance f rest i x).erase e = (c.advance f rest i (x.erase e)).erase e := by
  unfold advance erase Effect.erase
  simp only [Memory.erase_erase]
  rfl

theorem erase_advance {i : Instruction} {x : Effect} :
    (c.advance f rest i x).erase e = (c.advance f rest i (x.erase e)).erase e := by
  unfold advance erase Effect.erase
  simp only [Memory.erase_erase]
  rfl

theorem call_erase {dst : Option Reg} {callee : FunctionId} {args : List Operand} :
    ((c.erase e).call p f rest dst callee args).map (erase e) =
      (c.call p f rest dst callee args).map (erase e) := by
  unfold call
  refine Exec.map_bind_congr_right fun fn _ => ?_
  split
  · rfl
  · refine Exec.map_bind_congr_right fun registers _ => congrArg Except.ok ?_
    unfold erase
    simp only [Memory.erase_erase]

theorem ret_erase {v : Value} :
    ((c.erase e).ret f rest v).map (erase e) = (c.ret f rest v).map (erase e) := by
  unfold ret
  have hfree : Except.map (Memory.erase e)
      (Exec.ofMemory (f.stackBlocks.foldlM Memory.free (c.memory.erase e))) =
        Except.map (Memory.erase e)
          (Exec.ofMemory (f.stackBlocks.foldlM Memory.free c.memory)) := by
    rw [Exec.map_ofMemory, Exec.map_ofMemory, Memory.freeAll_congr Memory.erase_erase]
  refine Exec.map_bind_congr hfree fun x y hxy => ?_
  cases rest with
  | nil => rfl
  | cons caller rest => exact congrArg Except.ok (by simp only [erase, hxy])

theorem terminate_erase {fn : FunctionDef} {t : Terminator} :
    ((c.erase e).terminate f rest fn t).map (erase e) =
      (c.terminate f rest fn t).map (erase e) := by
  have hstack : ∀ g, Except.map (erase e) (Except.ok { c.erase e with stack := g :: rest } : Exec Config) =
      Except.map (erase e) (Except.ok { c with stack := g :: rest } : Exec Config) := by
    intro g
    refine congrArg Except.ok ?_
    unfold erase
    simp only [Memory.erase_erase]
  cases t with
  | br label => exact Exec.map_bind_congr_right fun g _ => hstack g
  | condBr cond onTrue onFalse =>
    refine Exec.map_bind_congr_right fun v _ => ?_
    split
    · exact Exec.map_bind_congr_right fun g _ => hstack g
    · rfl
    · rfl
  | ret val =>
    refine Exec.map_bind_congr_right fun v _ => ?_
    split
    · exact ret_erase
    · rfl
  | unreachable => rfl

/-- What comes of an instruction, once erased, depends on its erased effect only. -/
theorem map_advance {b : Config} {i : Instruction}
    (h : ∀ x, (b.advance f rest i x).erase e = (c.advance f rest i (x.erase e)).erase e)
    (x : Exec Effect) : (x.map fun y => b.advance f rest i y).map (erase e) =
      (x.map (Effect.erase e)).map fun y => (c.advance f rest i y).erase e := by
  cases x with
  | error k => rfl
  | ok y => exact congrArg Except.ok (h y)

theorem instruction_erase {i : Instruction} (h : e.Hides f.registers i) :
    ((i.effect (c.erase e).memory f.registers).map fun x =>
        Except.map (fun y => (c.erase e).advance f rest i y) x).map (Except.map (erase e)) =
      ((i.effect c.memory f.registers).map fun x =>
        Except.map (fun y => c.advance f rest i y) x).map (Except.map (erase e)) := by
  have hfactor : ∀ (x : Ask (Exec Effect)) (b : Config),
      (∀ y, (b.advance f rest i y).erase e = (c.advance f rest i (y.erase e)).erase e) →
      (x.map fun y => Except.map (fun z => b.advance f rest i z) y).map (Except.map (erase e)) =
        (x.map (Except.map (Effect.erase e))).map
          (Except.map fun z => (c.advance f rest i z).erase e) := by
    intro x b hb
    rw [Ask.map_map, Ask.map_map]
    exact congrArg (Ask.map · x) (funext fun y => map_advance hb y)
  rw [hfactor _ (c.erase e) fun _ => advance_erase, hfactor _ c fun _ => erase_advance]
  exact congrArg (Ask.map _) (Instruction.effect_erase h)

/-- A step of an erased state is, erased, a step of the state. -/
theorem step_erase (h : c.Hides p e) :
    ((c.erase e).step p).map (Except.map (erase e)) = (c.step p).map (Except.map (erase e)) := by
  unfold step
  have hsame : (c.erase e).stack = c.stack := rfl
  rw [hsame]
  cases hstack : c.stack with
  | nil => rfl
  | cons f rest =>
    show Ask.map _ (Ask.after (c.fetch p f) _) = _
    rw [Ask.map_after, Ask.map_after]
    refine Ask.after_congr fun x hx => ?_
    obtain ⟨fn, code⟩ := x
    cases code with
    | terminator t => exact congrArg Ask.done terminate_erase
    | instruction i =>
      have hi := h f rest fn i hstack hx
      cases i with
      | call dst callee args => exact congrArg Ask.done call_erase
      | _ => exact instruction_erase hi

end Config

end PointerSemantics
