import Mathlib.Data.List.Nodup
import PointerSemantics.Proofs.States

/-!
# Frames, calls and stack blocks

The calls of the frames are different, below the next call, and exactly those in the call table; every
frame is at some code of the function of its call; and the blocks that the frames will release are the
live blocks of the stack, each of them owned once. A step keeps all three, each on its own.
-/

namespace PointerSemantics

/-! ## Blocks of the stack -/

theorem Config.ownsAsStack_iff {m : Memory} {id : BlockId} :
    ownsAsStack m id = true ↔ m.LiveOnStack id := by
  rw [ownsAsStack, Option.any_eq_true]
  simp [Memory.LiveOnStack]

section Effects

variable {m m' : Memory} {regs : Table Value} {i : Instruction} {e : Effect} {id : BlockId}

/-- An instruction adds to the live blocks of the stack the one it hands to the frame. -/
theorem Instruction.Does.liveOnStack (h : i.Does m regs e) (hm : m.Wf) (j : BlockId) :
    e.memory.LiveOnStack j ↔ m.LiveOnStack j ∨ e.stackBlock = some j := by
  cases h with
  | bind _ => simp [Effect.binding]
  | store _ _ hw => simp [Effect.change, Memory.liveOnStack_write hw]
  | free _ hb hkind hf => simp [Effect.change, Memory.liveOnStack_free hb hkind hf]
  | malloc hkind _ ha => simp [Effect.binding, hm.liveOnStack_allocate ha, hkind]
  | alloca hkind _ ha =>
    rw [hm.liveOnStack_allocate ha]
    simp [hkind, eq_comm]

/-- The block handed to the frame is a new one. -/
theorem Instruction.Does.not_liveOnStack (h : i.Does m regs e) (hm : m.Wf)
    (hid : e.stackBlock = some id) : ¬m.LiveOnStack id := by
  cases h with
  | bind _ => simp [Effect.binding] at hid
  | store | free => simp [Effect.change] at hid
  | malloc => simp [Effect.binding] at hid
  | alloca _ _ ha =>
    obtain rfl := Option.some.inj hid
    obtain ⟨rfl, -⟩ := Memory.get?_allocate ha
    rintro ⟨b, hb, -⟩
    rw [hm.get?_freshId] at hb
    simp at hb

end Effects

namespace Config

variable {p : Program} {c d : Config} {f : Frame} {rest : List Frame}

/-! ## Calls -/

/-- The calls of the frames, the innermost first. -/
def callIds (c : Config) : List CallId := c.stack.map (·.callId)

/-- The calls of the frames differ, lie below the next call, and are those in the call table. -/
structure CallsWf (c : Config) : Prop where
  nodup : c.callIds.Nodup
  lt : ∀ k ∈ c.callIds, k < c.nextCallId
  mem_iff : ∀ k, k ∈ c.callIds ↔ (c.callTable.find? k).isSome = true

theorem callIds_of_stack {g : Frame} (hstack : c.stack = f :: rest) (hd : d.stack = g :: rest)
    (hg : g.callId = f.callId) : d.callIds = c.callIds := by
  unfold callIds
  rw [hd, hstack, List.map_cons, List.map_cons, hg]

/-- Only calls and returns change which calls there are. -/
theorem CallsWf.of_eq (h : c.CallsWf) (hids : d.callIds = c.callIds)
    (htable : d.callTable = c.callTable) (hnext : d.nextCallId = c.nextCallId) : d.CallsWf where
  nodup := hids ▸ h.nodup
  lt := by rw [hids, hnext]; exact h.lt
  mem_iff := by rw [hids, htable]; exact h.mem_iff

/-- The call table says the same of the frames there were after a call. -/
theorem CallsWf.find?_insert (h : c.CallsWf) {g : Frame} (hg : g ∈ c.stack) (callee : FunctionId) :
    (c.callTable.insert c.nextCallId callee).find? g.callId = c.callTable.find? g.callId := by
  rw [Table.find?_insert, if_neg]
  intro heq
  have hlt : g.callId < c.nextCallId := h.lt _ (List.mem_map_of_mem hg)
  exact Nat.ne_of_lt hlt heq

/-- The call table says the same of the frames that are left after a return. -/
theorem CallsWf.find?_erase (h : c.CallsWf) (hstack : c.stack = f :: rest) {g : Frame}
    (hg : g ∈ rest) : (c.callTable.erase f.callId).find? g.callId = c.callTable.find? g.callId := by
  have hnodup := h.nodup
  unfold callIds at hnodup
  rw [hstack, List.map_cons] at hnodup
  rw [Table.find?_erase, if_neg]
  intro heq
  exact (List.nodup_cons.1 hnodup).1 (heq ▸ List.mem_map_of_mem hg)

theorem Steps.callsWf (h : c.Steps p d) (hc : c.CallsWf) : d.CallsWf := by
  cases h with
  | effect hstack => exact hc.of_eq (callIds_of_stack hstack rfl rfl) rfl rfl
  | jump hstack => exact hc.of_eq (callIds_of_stack hstack rfl rfl) rfl rfl
  | @call f rest fn dst callee args target registers hstack hfetch hcallee hargs =>
    have hids : ∀ {t n}, callIds ⟨c.memory, ⟨c.nextCallId, .entry, registers, dst, []⟩ ::
        { f with pc := f.pc.next } :: rest, t, n⟩ = c.nextCallId :: c.callIds := by
      intro t n
      unfold callIds
      rw [hstack]
      rfl
    have hnew : c.nextCallId ∉ c.callIds := fun hk => Nat.lt_irrefl _ (hc.lt _ hk)
    refine ⟨?_, fun k hk => ?_, fun k => ?_⟩
    · rw [hids]
      exact List.nodup_cons.2 ⟨hnew, hc.nodup⟩
    · rw [hids, List.mem_cons] at hk
      rcases hk with rfl | hk
      · exact Nat.lt_succ_self _
      · exact Nat.lt_succ_of_lt (hc.lt k hk)
    · rw [hids, List.mem_cons, hc.mem_iff, Table.find?_insert]
      by_cases hk : k = c.nextCallId
      · simp [hk]
      · simp [hk]
  | @ret f caller outer fn val v memory hstack hfetch hval hfree =>
    have hids : c.callIds = f.callId :: caller.callId :: outer.map (·.callId) := by
      unfold callIds
      rw [hstack]
      rfl
    have hnodup := hc.nodup
    rw [hids] at hnodup
    obtain ⟨hnot, hnodup⟩ := List.nodup_cons.1 hnodup
    refine ⟨hnodup, fun k hk => hc.lt k ?_, fun k => ?_⟩
    · rw [hids]
      exact List.mem_cons_of_mem _ hk
    · have hk := hc.mem_iff k
      rw [hids, List.mem_cons] at hk
      show k ∈ caller.callId :: outer.map (·.callId) ↔ _
      rw [Table.find?_erase]
      by_cases hkf : k = f.callId
      · subst hkf
        simp only [if_pos, Option.isSome_none, Bool.false_eq_true, iff_false]
        exact hnot
      · rw [if_neg hkf, ← hk]
        simp [hkf]

/-! ## Places -/

/-- The frame runs a known function and is at some code of it. -/
def AtCode (p : Program) (c : Config) (f : Frame) : Prop :=
  ∃ id fn, c.callTable.find? f.callId = some id ∧ p id = some fn ∧ fn.isValidPc f.pc = true

/-- Every frame is at some code of its function. -/
def CodeWf (p : Program) (c : Config) : Prop := ∀ f ∈ c.stack, c.AtCode p f

theorem AtCode.of_fetch {fn : FunctionDef} {code : Code} {g : Frame}
    (hfetch : c.fetch p f = .ok (fn, code)) (hpc : fn.isValidPc g.pc = true)
    (hfind : d.callTable.find? g.callId = c.callTable.find? f.callId) : d.AtCode p g := by
  obtain ⟨id, hid, hfn, -⟩ := fetch_eq_ok_iff.1 hfetch
  exact ⟨id, fn, hfind.trans hid, hfn, hpc⟩

/-- A frame stays at its code while its call is under way. -/
theorem AtCode.of_find? {g : Frame} (h : c.AtCode p f) (hpc : g.pc = f.pc)
    (hfind : d.callTable.find? g.callId = c.callTable.find? f.callId) : d.AtCode p g := by
  obtain ⟨id, fn, hid, hfn, hvalid⟩ := h
  exact ⟨id, fn, hfind.trans hid, hfn, hpc ▸ hvalid⟩

theorem Steps.codeWf (h : c.Steps p d) (hcalls : c.CallsWf) (hc : c.CodeWf p)
    (hblocks : ∀ id fn, p id = some fn → fn.blocks ≠ []) : d.CodeWf p := by
  cases h with
  | effect hstack hfetch =>
    intro g hg
    rcases List.mem_cons.1 hg with rfl | hg
    · obtain ⟨-, -, -, hcode⟩ := fetch_eq_ok_iff.1 hfetch
      exact .of_fetch hfetch (FunctionDef.isValidPc_next hcode) rfl
    · exact hc g (hstack ▸ List.mem_cons_of_mem _ hg)
  | jump hstack hfetch htarget =>
    intro g hg
    rcases List.mem_cons.1 hg with rfl | hg
    · exact .of_fetch hfetch (FunctionDef.isValidPc_start htarget) rfl
    · exact hc g (hstack ▸ List.mem_cons_of_mem _ hg)
  | @call f rest fn dst callee args target registers hstack hfetch hcallee hargs =>
    intro g hg
    rcases List.mem_cons.1 hg with rfl | hg
    · obtain ⟨b, bs, hb⟩ := List.exists_cons_of_ne_nil (hblocks callee target hcallee)
      refine ⟨callee, target, ?_, hcallee, FunctionDef.isValidPc_start (b := b) (by rw [hb]; rfl)⟩
      show (c.callTable.insert c.nextCallId callee).find? c.nextCallId = _
      rw [Table.find?_insert, if_pos rfl]
    · rcases List.mem_cons.1 hg with rfl | hg
      · obtain ⟨-, -, -, hcode⟩ := fetch_eq_ok_iff.1 hfetch
        have hf : f ∈ c.stack := hstack ▸ List.mem_cons_self
        exact .of_fetch hfetch (FunctionDef.isValidPc_next hcode) (hcalls.find?_insert hf callee)
      · have hgc : g ∈ c.stack := hstack ▸ List.mem_cons_of_mem _ hg
        exact (hc g hgc).of_find? rfl (hcalls.find?_insert hgc callee)
  | @ret f caller outer fn val v memory hstack hfetch hval hfree =>
    intro g hg
    rcases List.mem_cons.1 hg with rfl | hg
    · have hcaller := hcalls.find?_erase hstack List.mem_cons_self
      exact (hc caller (by rw [hstack]; simp)).of_find? rfl hcaller
    · have hgc := hcalls.find?_erase hstack (List.mem_cons_of_mem _ hg)
      exact (hc g (by rw [hstack]; simp [hg])).of_find? rfl hgc

/-! ## Owned blocks -/

/-- The blocks that the frames release when they return. -/
def ownedBlocks (c : Config) : List BlockId := c.stack.flatMap (·.stackBlocks)

/-- The frames own live blocks of the stack, each of them once. -/
structure Owns (c : Config) : Prop where
  nodup : c.ownedBlocks.Nodup
  live : ∀ id ∈ c.ownedBlocks, c.memory.LiveOnStack id

/-- The frames own all live blocks of the stack. -/
structure Owned (c : Config) : Prop extends Owns c where
  mem_of_live : ∀ id, c.memory.LiveOnStack id → id ∈ c.ownedBlocks

theorem Owned.mem_iff (h : c.Owned) (id : BlockId) : id ∈ c.ownedBlocks ↔ c.memory.LiveOnStack id :=
  ⟨h.live id, h.mem_of_live id⟩

theorem ownedBlocks_of_stack (hstack : c.stack = f :: rest) :
    c.ownedBlocks = f.stackBlocks ++ rest.flatMap (·.stackBlocks) := by
  unfold ownedBlocks
  rw [hstack]
  rfl

theorem ownedBlocks_advance {i : Instruction} {e : Effect} (hstack : c.stack = f :: rest) :
    (e.stackBlock.toList ++ c.ownedBlocks).Perm (c.advance f rest i e).ownedBlocks := by
  rw [ownedBlocks_of_stack hstack]
  show (e.stackBlock.toList ++ (f.stackBlocks ++ rest.flatMap (·.stackBlocks))).Perm
    ((f.stackBlocks ++ e.stackBlock.toList) ++ rest.flatMap (·.stackBlocks))
  rw [← List.append_assoc]
  exact List.perm_append_comm.append_right _

/-- A step hands new blocks of the stack to frames and takes away those it releases. -/
theorem Steps.ownership (h : c.Steps p d) (hm : c.memory.Wf) : ∃ new gone : List BlockId,
    (new ++ c.ownedBlocks).Perm (gone ++ d.ownedBlocks) ∧ new.Nodup ∧
      (∀ id ∈ new, ¬c.memory.LiveOnStack id) ∧
        ∀ id, d.memory.LiveOnStack id ↔ (c.memory.LiveOnStack id ∨ id ∈ new) ∧ id ∉ gone := by
  cases h with
  | @effect f rest fn i e hstack hfetch he =>
    refine ⟨e.stackBlock.toList, [], ownedBlocks_advance hstack, ?_, fun id hid => ?_, fun id => ?_⟩
    · cases e.stackBlock <;> simp
    · exact he.not_liveOnStack hm (Option.mem_toList.1 hid)
    · show e.memory.LiveOnStack id ↔ _
      rw [he.liveOnStack hm]
      simp
  | call hstack =>
    refine ⟨[], [], ?_, List.nodup_nil, nofun, fun id => by simp⟩
    rw [ownedBlocks_of_stack hstack]
    exact .refl _
  | jump hstack =>
    refine ⟨[], [], ?_, List.nodup_nil, nofun, fun id => by simp⟩
    rw [ownedBlocks_of_stack hstack]
    exact .refl _
  | @ret f caller outer fn val v memory hstack hfetch hval hfree =>
    refine ⟨[], f.stackBlocks, ?_, List.nodup_nil, nofun, fun id => ?_⟩
    · rw [ownedBlocks_of_stack hstack]
      exact .refl _
    · show memory.LiveOnStack id ↔ _
      rw [Memory.liveOnStack_freeAll hfree]
      simp

theorem Steps.owns (h : c.Steps p d) (hm : c.memory.Wf) (hc : c.Owns) : d.Owns := by
  obtain ⟨new, gone, hperm, hnew, hfresh, hlive⟩ := h.ownership hm
  have hnodup : (new ++ c.ownedBlocks).Nodup := by
    refine List.nodup_append.2 ⟨hnew, hc.nodup, ?_⟩
    rintro a ha b hb rfl
    exact hfresh a ha (hc.live a hb)
  obtain ⟨-, hd, hdisjoint⟩ := List.nodup_append.1 (hperm.nodup_iff.1 hnodup)
  refine ⟨hd, fun id hid => (hlive id).2 ⟨?_, fun hgone => hdisjoint id hgone id hid rfl⟩⟩
  rcases List.mem_append.1 (hperm.mem_iff.2 (List.mem_append_right gone hid)) with hid | hid
  · exact .inr hid
  · exact .inl (hc.live id hid)

theorem Steps.owned (h : c.Steps p d) (hm : c.memory.Wf) (hc : c.Owned) : d.Owned := by
  obtain ⟨new, gone, hperm, -, -, hlive⟩ := h.ownership hm
  refine ⟨h.owns hm hc.toOwns, fun id hid => ?_⟩
  obtain ⟨hid, hgone⟩ := (hlive id).1 hid
  have hmem : id ∈ new ++ c.ownedBlocks := by
    rcases hid with hid | hid
    · exact List.mem_append_right _ (hc.mem_of_live id hid)
    · exact List.mem_append_left _ hid
  rcases List.mem_append.1 (hperm.mem_iff.1 hmem) with hid | hid
  · exact absurd hid hgone
  · exact hid

end Config

end PointerSemantics
