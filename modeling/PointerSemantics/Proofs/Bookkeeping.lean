import PointerSemantics.Proofs.Build
import PointerSemantics.Proofs.Reachable
import PointerSemantics.Proofs.Swap.Instructions

/-!
# The interpreter keeps track

A program whose functions are closed never makes the interpreter lose its own frames, calls, code, labels
or blocks: what every reachable state has (`Config.Coherent`) leaves no way for the next step to be stuck
for such a reason, if its question is answered legally (`Config.Coherent.fails_step`).

The places where memory could refuse are the allocation, which is asked for a place that memory itself
offered, the access, which resolved its pointer before, and the release of the blocks of a frame that
returns, which are alive because no other frame owns them.
-/

namespace PointerSemantics

/-- The interpreter lost track of its frames, calls, code or blocks, or got an answer it did not offer. -/
def StuckReason.isBookkeeping : StuckReason → Bool
  | emptyStack | unknownCall | invalidPc _ | unknownLabel _ | invalidChoice | memory _ => true
  | unknownFunction _ | undefinedRegister _ | missingPhiIncoming _ | arityMismatch .. => false

/-- The execution is stuck for a reason of bookkeeping. -/
def Halt.isBookkeeping : Halt → Bool
  | stuck reason => reason.isBookkeeping
  | _ => false

theorem Halt.isBookkeeping_of_isOperandFault {h : Halt} (hfault : h.isOperandFault = true) :
    h.isBookkeeping = false := by
  cases h with
  | stuck reason => cases reason <;> simp_all [isOperandFault, isBookkeeping, StuckReason.isBookkeeping]
  | _ => rfl

/-- The computation is not stuck for a reason of bookkeeping. -/
abbrev Exec.Tracks {α : Type} (x : Exec α) : Prop := x.Fails fun h => h.isBookkeeping = false

theorem Exec.Fails.mapM {α β : Type} {P : Halt → Prop} {f : α → Exec β} {as : List α}
    (h : ∀ a ∈ as, (f a).Fails P) : (as.mapM f).Fails P := by
  induction as with
  | nil => exact Exec.fails_ok _
  | cons a as ih =>
    obtain ⟨ha, has⟩ := List.forall_mem_cons.1 h
    rw [List.mapM_cons]
    exact ha.bind fun b => (ih has).bind fun bs => Exec.fails_ok _

theorem Operand.tracks_eval (regs : Table Value) (op : Operand) : (op.eval regs).Tracks :=
  op.fails_eval fun _ => Halt.isBookkeeping_of_isOperandFault

/-! ## Memory -/

namespace Memory

variable {m : Memory}

/-- Different live blocks of the stack can be released one after the other. -/
theorem exists_freeAll {ids : List BlockId} (hnodup : ids.Nodup) (hlive : ∀ id ∈ ids, m.LiveOnStack id) :
    ∃ m', ids.foldlM Memory.free m = .ok m' := by
  induction ids generalizing m with
  | nil => exact ⟨m, rfl⟩
  | cons id ids ih =>
    obtain ⟨hid, hids⟩ := List.forall_mem_cons.1 hlive
    obtain ⟨hne, hnodup⟩ := List.nodup_cons.1 hnodup
    obtain ⟨b, hb, -, halive⟩ := hid
    have hfree := free_eq_ok_iff.2 ⟨b, hb, halive, rfl⟩
    have hone : [id].foldlM Memory.free m = .ok _ := (bind_pure _).trans hfree
    -- releasing one block leaves the others alive
    obtain ⟨m', hm'⟩ := ih hnodup fun j hj => (liveOnStack_freeAll hone j).2
      ⟨hids j hj, fun hj' => hne (List.mem_singleton.1 hj' ▸ hj)⟩
    refine ⟨m', ?_⟩
    rw [List.foldlM_cons, hfree]
    exact hm'

end Memory

/-! ## Numbers in registers -/

/-- A number has no bits beyond its width. -/
def Value.Masked (v : Value) : Prop := ∀ w n, v = .num w n → n < Word.modulus w

theorem Value.NumberWf.masked {v : Value} (h : v.NumberWf) : v.Masked := fun w n hv => (h w n hv).2.2

theorem Value.masked_ofBits (w n : Nat) : (ofBits w n).Masked := by
  intro w' n' h
  obtain ⟨rfl, rfl⟩ := Value.num.inj h
  exact Word.truncate_lt w n

theorem Operand.masked_eval {regs : Table Value} {op : Operand} {v : Value}
    (hregs : ∀ r v, regs.find? r = some v → v.Masked) (h : op.eval regs = .ok v) : v.Masked :=
  forall_eval hregs Value.masked_ofBits nofun nofun h

theorem Instruction.Does.masked {m : Memory} {regs : Table Value} {i : Instruction} {e : Effect} {v : Value}
    (h : i.Does m regs e) (hregs : ∀ r v, regs.find? r = some v → v.Masked) (hv : e.value = some v) :
    v.Masked := by
  rintro w n rfl
  rcases h.value_cases hv with ⟨h, -⟩ | ⟨req, id, -, hptr⟩
  · rcases h.num_cases with ⟨op, -, hop⟩ | hnumber | ⟨-, hn⟩
    · exact Operand.masked_eval hregs hop w n rfl
    · exact hnumber.masked w n rfl
    · exact hn
  · cases hptr

/-! ## The invariant -/

namespace Config

variable {p : Program} {c d : Config} {f : Frame} {rest : List Frame}

/-- What keeps the interpreter on track. -/
structure Coherent (p : Program) (c : Config) : Prop where
  sound : c.Sound
  masked : c.AllValues Value.Masked
  stack : c.stack ≠ []
  calls : c.CallsWf
  code : c.CodeWf p
  owns : c.Owns

/-- Every function is closed. -/
def ProgramClosed (p : Program) : Prop := ∀ id fn, p id = some fn → fn.Closed

theorem Steps.masked (h : c.Steps p d) (hc : c.AllValues Value.Masked) : d.AllValues Value.Masked := by
  refine h.allValues hc (fun _ hv => hv) nofun nofun (fun _ _ _ w n _ => Value.masked_ofBits w n) ?_
  intro f rest fn i e v hstack _ he _ hv
  exact he.masked (fun _ _ => hc.top hstack) hv

theorem Steps.coherent (h : c.Steps p d) (hp : ProgramClosed p) (hc : c.Coherent p) : d.Coherent p where
  sound := h.sound hc.sound
  masked := h.masked hc.masked
  stack := h.stack_ne_nil
  calls := h.callsWf hc.calls
  code := h.codeWf hc.calls hc.code fun id fn hfn => (hp id fn hfn).entry
  owns := h.owns hc.sound.memory.wf hc.owns

theorem coherent_initial {entry : FunctionId} {args : List Value} {config : MemConfig}
    (h : initial p entry args config = .ok c) (hp : ProgramClosed p)
    (hargs : ∀ v ∈ args, (Memory.empty config).valueWf v = true) : c.Coherent p where
  sound := sound_initial h fun v hv => (Memory.valueWf_iff.1 (hargs v hv)).1
  masked := allValues_initial h fun v hv => (Memory.valueWf_iff.1 (hargs v hv)).2.masked
  stack := stack_initial h
  calls := callsWf_initial h
  code := codeWf_initial h fun id fn hfn => (hp id fn hfn).entry
  owns := (owned_initial h).toOwns

/-- The innermost frame is at some code of a function of the program. -/
theorem Coherent.exists_fetch (h : c.Coherent p) (hstack : c.stack = f :: rest) :
    ∃ fn code, c.fetch p f = .ok (fn, code) := by
  obtain ⟨id, fn, hid, hfn, hvalid⟩ := h.code f (hstack ▸ List.mem_cons_self)
  obtain ⟨code, hcode⟩ := Option.isSome_iff_exists.1 hvalid
  exact ⟨fn, code, fetch_eq_ok_iff.2 ⟨id, hid, hfn, hcode⟩⟩

/-- A frame can release its blocks. -/
theorem Owns.exists_freeAll (h : c.Owns) (hstack : c.stack = f :: rest) :
    ∃ m, f.stackBlocks.foldlM Memory.free c.memory = .ok m := by
  have howned := ownedBlocks_of_stack hstack
  have hnodup := h.nodup
  rw [howned] at hnodup
  refine Memory.exists_freeAll (List.nodup_append.1 hnodup).1 fun id hid => ?_
  exact h.live id (howned ▸ List.mem_append_left _ hid)

end Config

/-! ## Steps -/

theorem Instruction.fails_effect {m : Memory} {regs : Table Value} (i : Instruction) (hm : m.Usable)
    (hregs : ∀ r v, regs.find? r = some v → m.PointsWell v) {h : Halt}
    (herror : .error h ∈ (i.effect m regs).results) : h.isBookkeeping = false := by
  cases hprepare : i.prepare regs with
  | error e =>
    rw [effect_of_prepare_error hprepare, Ask.mem_results_done] at herror
    obtain rfl := Except.error.inj herror
    rcases fails_prepare i _ hprepare with hfault | ⟨⟨ub, rfl⟩, -⟩
    · exact Halt.isBookkeeping_of_isOperandFault hfault
    · rfl
  | ok a =>
    have hact : i.effect m regs = a.act m := congrFun (effect_of_prepare hprepare) m
    rw [hact] at herror
    have ha : ∀ q ∈ a.pointers, m.pointerWf q = true :=
      fun q hq => (prepares_of_prepare hprepare).pointerWf hregs hq
    rcases Action.error_cases hm ha herror with ⟨ub, rfl⟩ | rfl
    · rfl
    · rfl

namespace Frame

variable {f : Frame} {fn : FunctionDef}

theorem tracks_phiValues (f : Frame) (source : String) (phis : List Phi) :
    (f.phiValues source phis).Tracks := by
  refine Exec.Fails.mapM fun phi _ => ?_
  split
  · exact Exec.fails_error rfl
  · next op _ _ =>
    refine (op.tracks_eval f.registers).bind fun v => ?_
    split
    · exact Exec.fails_ok _
    · exact Exec.fails_error rfl

/-- A jump from a block of the function to a label of the function arrives. -/
theorem tracks_jump {label : String} {source : BasicBlock} (hsource : fn.blocks[f.pc.block]? = some source)
    (hlabel : label ∈ fn.blocks.map (·.label)) : (f.jump fn label).Tracks := by
  obtain ⟨index, target, hindex, htarget⟩ := FunctionDef.exists_blockIndex? hlabel
  unfold jump
  simp only [hindex, hsource, htarget]
  exact (f.tracks_phiValues source.label target.phis).bind fun values => Exec.fails_ok _

end Frame

namespace Config

variable {p : Program} {c d : Config} {f : Frame} {rest : List Frame}

theorem tracks_bindArguments (regs : Table Value) (params : List (Reg × Ty)) (args : List Operand) :
    (bindArguments regs params args).Tracks := by
  refine (Exec.Fails.mapM fun x _ => ?_).bind fun bound => Exec.fails_ok _
  obtain ⟨⟨r, ty⟩, arg⟩ := x
  refine (arg.tracks_eval regs).bind fun v => ?_
  split
  · exact Exec.fails_ok _
  · exact Exec.fails_error rfl

theorem tracks_call (dst : Option Reg) (callee : FunctionId) (args : List Operand) :
    (c.call p f rest dst callee args).Tracks := by
  unfold call
  cases p callee with
  | none => exact Exec.fails_error rfl
  | some fn =>
    show Exec.Tracks (if _ then _ else _)
    split
    · exact Exec.fails_error rfl
    · exact (tracks_bindArguments f.registers fn.params args).bind fun registers => Exec.fails_ok _

theorem Owns.tracks_ret (h : c.Owns) (hstack : c.stack = f :: rest) (fn : FunctionDef) (val : Operand) :
    (c.terminate f rest fn (.ret val)).Tracks := by
  obtain ⟨memory, hmemory⟩ := h.exists_freeAll hstack
  refine (val.tracks_eval f.registers).bind fun v => ?_
  split
  · unfold ret
    rw [hmemory]
    cases rest with
    | nil => exact Exec.fails_error rfl
    | cons caller outer => exact Exec.fails_ok _
  · exact Exec.fails_error rfl

theorem Coherent.tracks_terminate (h : c.Coherent p) (hp : ProgramClosed p) (hstack : c.stack = f :: rest)
    {fn : FunctionDef} {t : Terminator} (hfetch : c.fetch p f = .ok (fn, .terminator t)) :
    (c.terminate f rest fn t).Tracks := by
  obtain ⟨id, -, hfn, hcode⟩ := fetch_eq_ok_iff.1 hfetch
  obtain ⟨source, hsource, hterminator, -⟩ := FunctionDef.codeAt?_terminator hcode
  have hjump : ∀ l ∈ t.successors, (f.jump fn l).Tracks := by
    rintro l hl
    refine Frame.tracks_jump hsource ?_
    exact (hp id fn hfn).labels source (List.mem_of_getElem? hsource) l (hterminator ▸ hl)
  cases t with
  | br label => exact (hjump label List.mem_cons_self).bind fun g => Exec.fails_ok _
  | condBr cond onTrue onFalse =>
    refine (cond.tracks_eval f.registers).bind fun v => ?_
    split
    · refine (hjump _ ?_).bind fun g => Exec.fails_ok _
      split <;> simp [Terminator.successors]
    · exact Exec.fails_error rfl
    · exact Exec.fails_error rfl
  | ret val => exact h.owns.tracks_ret hstack fn val
  | unreachable => exact Exec.fails_error rfl

/-- However its question is answered legally, the next step is not stuck for a reason of bookkeeping. -/
theorem Coherent.fails_step (h : c.Coherent p) (hp : ProgramClosed p) {e : Halt}
    (herror : .error e ∈ c.successors p) : e.isBookkeeping = false := by
  obtain ⟨f, rest, hstack⟩ := List.exists_cons_of_ne_nil h.stack
  obtain ⟨fn, code, hfetch⟩ := h.exists_fetch hstack
  unfold successors at herror
  cases code with
  | terminator t =>
    rw [step_terminator hstack hfetch] at herror
    exact h.tracks_terminate hp hstack hfetch e (Ask.mem_results_done.1 herror).symm
  | instruction i =>
    by_cases hcall : i.category = .call
    · obtain ⟨dst, callee, args, rfl⟩ := Instruction.exists_eq_call hcall
      rw [step_call hstack hfetch] at herror
      exact tracks_call dst callee args e (Ask.mem_results_done.1 herror).symm
    · rw [step_instruction hstack hfetch hcall] at herror
      obtain ⟨x, hx, hmap⟩ := Ask.mem_results_map.1 herror
      obtain rfl := Exec.map_eq_error_iff.1 hmap
      exact i.fails_effect h.sound.memory.usable (fun _ _ => h.sound.values.top hstack) hx

end Config

end PointerSemantics
